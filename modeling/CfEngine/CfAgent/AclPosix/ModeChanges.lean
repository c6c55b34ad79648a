import CfEngine.CfAgent.AclPosix.Aces
import CfEngine.Library.Masking

namespace CfEngine

open Function (update)

-- What is done does not depend on the permissions, except that a part of them is kept.
def Uniform (f : AclPerms → Option (Bool × CString × AclPerms)) : Prop :=
  (∀ perms, f perms = none) ∨ ∃ (ok : Bool) (rest : CString) (m : Masking AclPerms),
    ∀ perms, f perms = some (ok, rest, m.apply perms)

theorem Uniform.comp {f : AclPerms → Option (Bool × CString × AclPerms)} (h : Uniform f) (m : Masking AclPerms) :
    Uniform fun perms => f (m.apply perms) := by
  obtain h | ⟨ok, rest, m', h⟩ := h
  · exact .inl fun perms => h _
  · exact .inr ⟨ok, rest, m'.comp m, fun perms => (h _).trans <| by rw [Masking.comp_apply]⟩

theorem change_held (op : ModeOp) (perm : AclPerm) : ∃ m : Masking AclPerms,
    ∀ perms, heldPermissions.change op perms perm = some (m.apply perms) := by
  refine ⟨⟨update ⊤ perm ⊥, update ⊥ perm (op = .add)⟩, fun perms => ?_⟩
  cases op
  all_goals
    refine congrArg some <| funext fun p => ?_
    by_cases hp : p = perm
    case pos =>
      subst hp
      simp [Masking.apply]
    case neg => simp [Masking.apply, hp]

theorem clear_held : ∃ m : Masking AclPerms, ∀ perms, heldPermissions.clearPerms perms = some (m.apply perms) :=
  ⟨.only ⊥, fun perms => congrArg some (Masking.only_apply ⊥ perms).symm⟩

theorem parsePerms_held (op : ModeOp) (valid mode : CString) :
    ∃ (ok : Bool) (rest : CString) (m : Masking AclPerms),
      ∀ perms, parsePerms heldPermissions op valid mode perms = (ok, rest, m.apply perms) := by
  induction mode
  case nil            => exact ⟨true, [], .same, fun perms => by simp [parsePerms]⟩
  case cons c mode ih =>
    by_cases hc : c ∈ valid
    case neg => exact ⟨true, c :: mode, .same, fun perms => by simp [parsePerms, hc]⟩
    case pos =>
      cases hperm : AclPerm.ofChar c
      case none      => exact ⟨false, c :: mode, .same, fun perms => by simp [parsePerms, hc, hperm]⟩
      case some perm =>
        obtain ⟨m, hm⟩ := change_held op perm
        obtain ⟨ok, rest, m', hm'⟩ := ih
        exact ⟨ok, rest, m'.comp m, fun perms => by simp [parsePerms, hc, hperm, hm, hm', Masking.comp_apply]⟩

theorem parsePermissions_uniform (op : ModeOp) (clear : Bool) (mode : CString) :
    Uniform (parsePermissions heldPermissions op clear mode) := by
  obtain ⟨m, hm⟩ : ∃ m : Masking AclPerms, ∀ perms,
      (if clear then heldPermissions.clearPerms perms else some perms) = some (m.apply perms) := by
    cases clear
    case false => exact ⟨.same, fun perms => by rw [Masking.same_apply]; rfl⟩
    case true  => exact clear_held
  obtain ⟨ok, rest, m₁, h₁⟩ := parsePerms_held op cfValidGperms mode
  have hgperms (perms : AclPerms) : parsePerms heldPermissions op cfValidGperms mode (m.apply perms) =
      (ok, rest, (m₁.comp m).apply perms) := by
    rw [h₁, Masking.comp_apply]
  cases ok
  case false =>
    refine .inr ⟨false, rest, m₁.comp m, fun perms => ?_⟩
    rw [parsePermissions, hm]
    dsimp only
    rw [hgperms]
  case true  =>
    by_cases hopen : ∃ mode', rest = '(' :: mode'
    case neg =>
      refine .inr ⟨true, rest, m₁.comp m, fun perms => ?_⟩
      rw [parsePermissions, hm]
      dsimp only
      rw [hgperms]
      split
      case h_1 he => cases he
      case h_2 he =>
        cases he
        exact absurd ⟨_, rfl⟩ hopen
      case h_3 he =>
        cases he
        rfl
    case pos =>
      obtain ⟨mode', rfl⟩ := hopen
      obtain ⟨ok, rest, m₂, h₂⟩ := parsePerms_held op cfValidNpermsPosix mode'
      have hnperms (perms : AclPerms) : parsePerms heldPermissions op cfValidNpermsPosix mode'
          ((m₁.comp m).apply perms) = (ok, rest, (m₂.comp (m₁.comp m)).apply perms) := by
        rw [h₂, Masking.comp_apply m₂]
      cases ok
      case false =>
        refine .inr ⟨false, rest, m₂.comp (m₁.comp m), fun perms => ?_⟩
        simp only [parsePermissions, hm, hgperms, hnperms]
      case true  =>
        cases rest
        case nil         =>
          refine .inl fun perms => ?_
          simp only [parsePermissions, hm, hgperms, hnperms]
        case cons c rest =>
          refine .inr ⟨true, rest, m₂.comp (m₁.comp m), fun perms => ?_⟩
          simp only [parsePermissions, hm, hgperms, hnperms]

theorem parseModeEntries_uniform (mode : CString) : Uniform (parseModeEntries heldPermissions mode) := by
  induction hn : mode.length using Nat.strong_induction_on generalizing mode
  case h n ih =>
    obtain h | ⟨ok, rest, m, h⟩ : Uniform (parseModeEntry heldPermissions mode) := parsePermissions_uniform ..
    · left
      intro perms
      rw [parseModeEntries]
      split
      case h_1 he => nomatch (h perms).symm.trans he
      case h_2    => exact h perms
    · by_cases hmore : ok = true ∧ ∃ entries, rest = ',' :: entries
      case pos =>
        obtain ⟨rfl, entries, rfl⟩ := hmore
        have hlt : entries.length < n := hn ▸ parseModeEntry_length (h .none)
        have heq : parseModeEntries heldPermissions mode =
            fun perms => parseModeEntries heldPermissions entries (m.apply perms) :=
          funext fun perms => parseModeEntries_comma (h perms)
        exact heq ▸ (ih _ hlt entries rfl).comp m
      case neg =>
        refine .inr ⟨ok, rest, m, fun perms => ?_⟩
        rw [parseModeEntries]
        split
        case h_1 he =>
          cases (h perms).symm.trans he
          exact absurd ⟨rfl, _, rfl⟩ hmore
        case h_2    => exact h perms

theorem parseModePosixLinux_uniform (mode : CString) : Uniform (parseModePosixLinux heldPermissions mode) := by
  by_cases hmode : IsModeEnd mode
  case pos =>
    have ⟨m, hm⟩ := clear_held
    refine .inr ⟨true, mode, m, fun perms => ?_⟩
    obtain rfl | ⟨fields, rfl⟩ := hmode <;> rw [parseModePosixLinux, hm]
  case neg =>
    have heq : parseModePosixLinux heldPermissions mode = parseModeEntries heldPermissions mode :=
      funext fun perms => parseModePosixLinux_entries hmode
    exact heq ▸ parseModeEntries_uniform mode

-- The permissions after a mode that is accepted.
def applyMode (mode : CString) (perms : AclPerms) : Option AclPerms :=
  match parseModePosixLinux heldPermissions mode perms with
  | some (true, _, perms) => some perms
  | _                     => none

def applyModes (modes : List CString) (perms : AclPerms) : Option AclPerms :=
  modes.foldlM (fun perms mode => applyMode mode perms) perms

theorem applyMode_uniform (mode : CString) : (∀ perms, applyMode mode perms = none) ∨
    ∃ m : Masking AclPerms, ∀ perms, applyMode mode perms = some (m.apply perms) := by
  obtain h | ⟨ok, rest, m, h⟩ := parseModePosixLinux_uniform mode
  · exact .inl fun perms => by rw [applyMode, h]
  · cases ok
    case false => exact .inl fun perms => by rw [applyMode, h]
    case true  => exact .inr ⟨m, fun perms => by rw [applyMode, h]⟩

theorem applyModes_uniform (modes : List CString) : (∀ perms, applyModes modes perms = none) ∨
    ∃ m : Masking AclPerms, ∀ perms, applyModes modes perms = some (m.apply perms) := by
  induction modes
  case nil             => exact .inr ⟨.same, fun perms => by rw [Masking.same_apply]; rfl⟩
  case cons mode modes ih =>
    obtain h | ⟨m, h⟩ := applyMode_uniform mode
    · exact .inl fun perms => by rw [applyModes, List.foldlM_cons, h]; rfl
    · have heq (perms : AclPerms) : applyModes (mode :: modes) perms = applyModes modes (m.apply perms) := by
        rw [applyModes, List.foldlM_cons, h]
        rfl
      obtain hm | ⟨m', hm⟩ := ih
      · exact .inl fun perms => (heq perms).trans <| hm _
      · exact .inr ⟨m'.comp m, fun perms => by rw [heq, hm, Masking.comp_apply]⟩

-- Modes that are applied once more change nothing.
theorem applyModes_getD (modes : List CString) (perms other : AclPerms) :
    applyModes modes ((applyModes modes perms).getD other) = applyModes modes perms := by
  obtain h | ⟨m, h⟩ := applyModes_uniform modes
  · rw [h, h]
  · rw [h, h, Option.getD_some, Masking.apply_apply]

end CfEngine
