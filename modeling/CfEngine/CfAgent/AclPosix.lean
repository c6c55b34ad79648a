import CfEngine.CfAgent.VerifyAcl

namespace CfEngine

inductive AclPerm
  | read
  | write
  | execute
  deriving DecidableEq

-- The calls on the set of permissions of an entry. None of them gives a result if it fails.
structure PermsetCalls (σ : Type) where
  clearPerms : σ → Option σ
  addPerm    : σ → AclPerm → Option σ
  deletePerm : σ → AclPerm → Option σ
  getPerm    : σ → AclPerm → Option Bool

inductive ModeOp
  | add
  | del
  deriving DecidableEq

def AclPerm.ofChar : Char → Option AclPerm
  | 'r' => some read
  | 'w' => some write
  | 'x' => some execute
  | _   => none

variable {σ : Type} (calls : PermsetCalls σ)

def PermsetCalls.change (op : ModeOp) (perms : σ) (perm : AclPerm) : Option σ :=
  match op with
  | .add => calls.addPerm perms perm
  | .del => calls.deletePerm perms perm

-- The loop over the generic permissions, and that over the native ones. The string is the rest.
def parsePerms (op : ModeOp) (valid : CString) : CString → σ → Bool × CString × σ
  | [], perms        => (true, [], perms)
  | c :: mode, perms =>
    if c ∈ valid then
      match AclPerm.ofChar c with
      | none      => (false, c :: mode, perms)
      | some perm =>
        match calls.change op perms perm with
        | none       => (false, c :: mode, perms)
        | some perms => parsePerms op valid mode perms
    else
      (true, c :: mode, perms)

-- The operator, whether the permissions are cleared, and the rest.
def parseOp : CString → ModeOp × Bool × CString
  | '+' :: mode => (.add, false, mode)
  | '-' :: mode => (.del, false, mode)
  | '=' :: mode => (.add, true, mode)
  | mode        => (.add, true, mode)

-- A turn of the loop from the character after the operator to that after the permissions. There is no result if the
-- string is read beyond its terminator, when there is no separator at the end of the native permissions.
def parsePermissions (op : ModeOp) (clear : Bool) (mode : CString) (perms : σ) : Option (Bool × CString × σ) :=
  match if clear then calls.clearPerms perms else some perms with
  | none       => some (false, mode, perms)
  | some perms =>
    match parsePerms calls op cfValidGperms mode perms with
    | (false, mode, perms)       => some (false, mode, perms)
    | (true, '(' :: mode, perms) =>
      match parsePerms calls op cfValidNpermsPosix mode perms with
      | (false, mode, perms)     => some (false, mode, perms)
      | (true, [], _)            => none
      | (true, _ :: mode, perms) => some (true, mode, perms)
    | (true, mode, perms)        => some (true, mode, perms)

def parseModeEntry (mode : CString) (perms : σ) : Option (Bool × CString × σ) :=
  let (op, clear, mode) := parseOp mode
  parsePermissions calls op clear mode perms

variable {calls} {op : ModeOp} {clear : Bool} {valid mode : CString} {perms : σ}

theorem parsePerms_length : (parsePerms calls op valid mode perms).2.1.length ≤ mode.length := by
  fun_induction parsePerms calls op valid mode perms
  case case4 ih => exact ih.trans <| Nat.le_succ _
  all_goals exact le_rfl

theorem parseOp_length : (parseOp mode).2.2.length ≤ mode.length := by
  fun_cases parseOp mode
  case case4 => exact le_rfl
  all_goals exact Nat.le_succ _

theorem parsePermissions_length {r : Bool × CString × σ} (h : parsePermissions calls op clear mode perms = some r) :
    r.2.1.length ≤ mode.length := by
  rw [parsePermissions] at h
  split at h
  case h_1         =>
    cases h
    exact le_rfl
  case h_2 perms _ =>
    have hgperms := @parsePerms_length σ calls op cfValidGperms mode perms
    split at h
    case h_1 he             =>
      cases h
      rwa [he] at hgperms
    case h_2 mode' perms' he =>
      rw [he, List.length_cons] at hgperms
      have hnperms := @parsePerms_length σ calls op cfValidNpermsPosix mode' perms'
      split at h
      case h_1 he =>
        cases h
        rw [he] at hnperms
        dsimp only at hnperms ⊢
        omega
      case h_2    => nomatch h
      case h_3 he =>
        cases h
        rw [he, List.length_cons] at hnperms
        dsimp only
        omega
    case h_3 he             =>
      cases h
      rwa [he] at hgperms

theorem parseModeEntry_length {r : Bool × CString × σ} (h : parseModeEntry calls mode perms = some r) :
    r.2.1.length ≤ mode.length :=
  (parsePermissions_length h).trans parseOp_length

variable (calls) in
def parseModeEntries (mode : CString) (perms : σ) : Option (Bool × CString × σ) :=
  match h : parseModeEntry calls mode perms with
  | some (true, ',' :: mode, perms) => parseModeEntries mode perms
  | result                         => result
termination_by mode.length
decreasing_by
  exact parseModeEntry_length h

variable (calls) in
-- The result, the string from the place at which the function is done with it, and the permissions.
def parseModePosixLinux (mode : CString) (perms : σ) : Option (Bool × CString × σ) :=
  match mode with
  | [] | ':' :: _ =>
    match calls.clearPerms perms with
    | none       => some (false, mode, perms)
    | some perms => some (true, mode, perms)
  | _             => parseModeEntries calls mode perms

end CfEngine
