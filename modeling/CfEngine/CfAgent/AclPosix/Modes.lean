import CfEngine.CfAgent.AclPosix

namespace CfEngine

open Function (update)

namespace PermsetCalls

variable {σ : Type}

-- The permissions that are in the set.
def Holds (calls : PermsetCalls σ) (perms : σ) (granted : AclPerm → Bool) : Prop :=
  ∀ perm, calls.getPerm perms perm = some (granted perm)

-- The calls work on the sets of permissions of entries.
structure Work (calls : PermsetCalls σ) : Prop where
  get    : ∀ perms, ∃ granted, calls.Holds perms granted
  clear  : ∀ perms, ∃ perms', calls.clearPerms perms = some perms' ∧ calls.Holds perms' fun _ => false
  add    : ∀ perms perm, ∃ perms', calls.addPerm perms perm = some perms' ∧
    ∀ granted, calls.Holds perms granted → calls.Holds perms' (update granted perm true)
  delete : ∀ perms perm, ∃ perms', calls.deletePerm perms perm = some perms' ∧
    ∀ granted, calls.Holds perms granted → calls.Holds perms' (update granted perm false)

end PermsetCalls

def AclPerm.char : AclPerm → Char
  | read    => 'r'
  | write   => 'w'
  | execute => 'x'

inductive Operator
  | plus
  | minus
  | equals

def Operator.char : Operator → Char
  | plus   => '+'
  | minus  => '-'
  | equals => '='

-- An entry of a mode: the operator, the generic permissions, and those in parentheses, which are native ones.
structure ModeEntry where
  op      : Option Operator
  gperms : List AclPerm
  nperms  : Option (List AclPerm)

namespace ModeEntry

def permsText (gperms : List AclPerm) : Option (List AclPerm) → CString
  | none        => gperms.map AclPerm.char
  | some nperms => gperms.map AclPerm.char ++ '(' :: nperms.map AclPerm.char ++ [')']

def text (entry : ModeEntry) : CString :=
  (entry.op.map Operator.char).toList ++ permsText entry.gperms entry.nperms

def permissions (entry : ModeEntry) : List AclPerm :=
  entry.gperms ++ entry.nperms.getD []

-- What the entry makes of the permissions that have been granted before.
def apply (entry : ModeEntry) (granted : AclPerm → Bool) (perm : AclPerm) : Bool :=
  match entry.op with
  | some .plus   => granted perm || perm ∈ entry.permissions
  | some .minus  => granted perm && perm ∉ entry.permissions
  | some .equals => perm ∈ entry.permissions
  | none         => perm ∈ entry.permissions

end ModeEntry

-- Entries are separated by commas.
def modeText (entries : List ModeEntry) : CString :=
  [','].intercalate <| entries.map ModeEntry.text

def applyEntries (entries : List ModeEntry) (granted : AclPerm → Bool) : AclPerm → Bool :=
  entries.foldl (fun granted entry => entry.apply granted) granted

def IsModeEnd (rest : CString) : Prop :=
  rest = [] ∨ ∃ fields, rest = ':' :: fields

-- The function does what the mode says.
structure ModeObeyed {σ : Type} (calls : PermsetCalls σ) (mode : CString) (perms : σ) (entries : List ModeEntry)
    (rest : CString) (perms' : σ) : Prop where
  parsed : parseModePosixLinux calls mode perms = some (true, rest, perms')
  read   : mode = modeText entries ++ rest
  isEnd  : IsModeEnd rest
  set    : ∃ granted, calls.Holds perms granted ∧ calls.Holds perms' (applyEntries entries granted)

-- There is one operator at the start of an entry at most.
def SingleOperators (mode : CString) : Prop :=
  ∀ field ∈ (mode.takeWhile (· ≠ ':')).splitOn ',', (field.takeWhile (· ∈ cfValidOpsMethodAppend)).length ≤ 1

-- An entry with any number of operators.
structure ScannedEntry where
  ops     : List Operator
  gperms : List AclPerm
  nperms  : Option (List AclPerm)

def ScannedEntry.text (entry : ScannedEntry) : CString :=
  entry.ops.map Operator.char ++ ModeEntry.permsText entry.gperms entry.nperms

def ScannedEntry.modeEntry (entry : ScannedEntry) : ModeEntry :=
  ⟨entry.ops.head?, entry.gperms, entry.nperms⟩

-- What follows an entry.
def IsEntryEnd (rest : CString) : Prop :=
  IsModeEnd rest ∨ ∃ entries, rest = ',' :: entries

variable {σ : Type} {calls : PermsetCalls σ} {method : AclMethod} {mode rest : CString} {perms perms' : σ}
  {op : ModeOp} {granted : AclPerm → Bool}

theorem AclPerm.char_mem (perm : AclPerm) : perm.char ∈ cfValidGperms := by
  cases perm <;> decide

theorem AclPerm.ofChar_char (perm : AclPerm) : AclPerm.ofChar perm.char = some perm := by
  cases perm <;> rfl

theorem Operator.char_mem (op : Operator) : op.char ∈ method.validOps := by
  cases op <;> cases method <;> decide

theorem exists_map_char {letters : CString} (h : ∀ c ∈ letters, c ∈ cfValidGperms) :
    ∃ perms : List AclPerm, letters = perms.map AclPerm.char := by
  induction letters
  case nil               => exact ⟨[], rfl⟩
  case cons c letters ih =>
    have ⟨hc, hletters⟩ := List.forall_mem_cons.mp h
    have ⟨perms, hperms⟩ := ih hletters
    have ⟨perm, hperm⟩ : ∃ perm : AclPerm, c = perm.char := by
      simp only [cfValidGperms, List.mem_cons, List.not_mem_nil, or_false] at hc
      obtain rfl | rfl | rfl := hc
      · exact ⟨.read, rfl⟩
      · exact ⟨.write, rfl⟩
      · exact ⟨.execute, rfl⟩
    exact ⟨perm :: perms, by rw [hperm, hperms, List.map_cons]⟩

theorem exists_map_opChar {letters : CString} (h : ∀ c ∈ letters, c ∈ method.validOps) :
    ∃ ops : List Operator, letters = ops.map Operator.char := by
  induction letters
  case nil               => exact ⟨[], rfl⟩
  case cons c letters ih =>
    have ⟨hc, hletters⟩ := List.forall_mem_cons.mp h
    have ⟨ops, hops⟩ := ih hletters
    have ⟨op, hop⟩ : ∃ op : Operator, c = op.char := by
      have hc : c ∈ ['=', '+', '-'] := by cases method <;> exact hc
      simp only [List.mem_cons, List.not_mem_nil, or_false] at hc
      obtain rfl | rfl | rfl := hc
      · exact ⟨.equals, rfl⟩
      · exact ⟨.plus, rfl⟩
      · exact ⟨.minus, rfl⟩
    exact ⟨op :: ops, by rw [hop, hops, List.map_cons]⟩

-- Scanning takes a text apart.
theorem exists_scanned (scanpast input : CString) : ∃ letters, (∀ c ∈ letters, c ∈ scanpast) ∧
    input = letters ++ scanPastChars scanpast input :=
  ⟨input.takeWhile (· ∈ scanpast), fun _ hc => by simpa using List.mem_takeWhile_imp hc,
    List.takeWhile_append_dropWhile.symm⟩

theorem checkModeEntry_scanned (h : checkModeEntry method.validOps cfValidNpermsPosix mode = (true, rest)) :
    ∃ entry : ScannedEntry, mode = entry.text ++ rest := by
  obtain ⟨opLetters, hopLetters, hmode⟩ := exists_scanned method.validOps mode
  obtain ⟨letters, hletters, hrest⟩ := exists_scanned cfValidGperms <| scanPastChars method.validOps mode
  obtain ⟨ops, hops⟩ := exists_map_opChar hopLetters
  obtain ⟨gperms, hgeneric⟩ := exists_map_char hletters
  subst hops hgeneric
  rw [checkModeEntry] at h
  split at h
  case h_2          =>
    cases h
    exact ⟨⟨ops, gperms, none⟩, by rw [ScannedEntry.text, ModeEntry.permsText, List.append_assoc, ← hrest, ← hmode]⟩
  case h_1 mode' hm =>
    obtain ⟨letters, hletters, hnative⟩ := exists_scanned cfValidNpermsPosix mode'
    obtain ⟨nperms, heq⟩ := exists_map_char hletters
    subst heq
    split at h
    case h_2    => cases h
    case h_1 hn =>
      cases h
      refine ⟨⟨ops, gperms, some nperms⟩, ?_⟩
      rw [hm, hnative, hn] at hrest
      rw [hmode, hrest, ScannedEntry.text, ModeEntry.permsText]
      simp

theorem checkModeEntries_scanned (h : (checkModeEntries method.validOps cfValidNpermsPosix mode).1 = true) :
    ∃ (entries : List ScannedEntry) (rest : CString), entries ≠ [] ∧ IsModeEnd rest ∧
      mode = [','].intercalate (entries.map ScannedEntry.text) ++ rest := by
  fun_induction checkModeEntries method.validOps cfValidNpermsPosix mode
  case case1 => nomatch h
  case case5 => nomatch h
  case case2 he =>
    have ⟨entry, hentry⟩ := checkModeEntry_scanned he
    exact ⟨[entry], [], nofun, .inl rfl, by simpa using hentry⟩
  case case3 he =>
    have ⟨entry, hentry⟩ := checkModeEntry_scanned he
    exact ⟨[entry], _, nofun, .inr ⟨_, rfl⟩, by simpa using hentry⟩
  case case4 he ih =>
    have ⟨entry, hentry⟩ := checkModeEntry_scanned he
    have ⟨entries, rest, hne, hend, hmode⟩ := ih h
    refine ⟨entry :: entries, rest, nofun, hend, ?_⟩
    rw [List.map_cons, List.intercalate_cons_of_ne_nil <| mt List.map_eq_nil_iff.mp hne, hentry, hmode]
    simp

theorem isEntryEnd_head (h : IsEntryEnd rest) : ∀ c ∈ rest.head?, c = ':' ∨ c = ',' := by
  obtain (rfl | ⟨fields, rfl⟩) | ⟨entries, rfl⟩ := h <;> simp

-- The loop over permissions goes through all of them.
theorem parsePerms_map (hw : calls.Work) (letters : List AclPerm) (hr : ∀ c ∈ rest.head?, c ∉ cfValidGperms) :
    ∃ perms', parsePerms calls op cfValidGperms (letters.map AclPerm.char ++ rest) perms = (true, rest, perms') ∧
      ∀ granted, calls.Holds perms granted →
        calls.Holds perms' fun perm => if perm ∈ letters then op = .add else granted perm := by
  induction letters generalizing perms
  case nil                    =>
    refine ⟨perms, ?_, fun granted h => by simpa using h⟩
    cases rest
    case nil          => rfl
    case cons c rest => exact if_neg <| hr c rfl
  case cons perm letters ih =>
    have ⟨perms₁, hchange, hholds₁⟩ : ∃ perms₁, calls.change op perms perm = some perms₁ ∧
        ∀ granted, calls.Holds perms granted → calls.Holds perms₁ (update granted perm (op = .add)) := by
      cases op
      case add => exact hw.add perms perm
      case del => exact hw.delete perms perm
    have ⟨perms₂, hparse, hholds₂⟩ := @ih perms₁
    refine ⟨perms₂, ?_, fun granted h => ?_⟩
    · rw [List.map_cons, List.cons_append, parsePerms, if_pos perm.char_mem, AclPerm.ofChar_char]
      dsimp only
      rw [hchange, ← hparse]
    · have h₂ := hholds₂ _ <| hholds₁ granted h
      intro p
      rw [h₂ p]
      by_cases hp : p ∈ letters
      case pos => simp [hp]
      case neg =>
        by_cases heq : p = perm
        case pos => simp [heq]
        case neg => simp [hp, heq]

-- All permissions are changed in the same way.
def changed (op : ModeOp) (permissions : List AclPerm) (granted : AclPerm → Bool) (perm : AclPerm) : Bool :=
  if perm ∈ permissions then op = .add else granted perm

theorem parseModeEntry_eq : parseModeEntry calls mode perms =
    parsePermissions calls (parseOp mode).1 (parseOp mode).2.1 (parseOp mode).2.2 perms :=
  rfl

theorem parsePermissions_text (hw : calls.Work) (gperms : List AclPerm) (nperms : Option (List AclPerm)) (clear : Bool)
    (hr : IsEntryEnd rest) : ∃ perms',
      parsePermissions calls op clear (ModeEntry.permsText gperms nperms ++ rest) perms = some (true, rest, perms') ∧
      ∀ granted, calls.Holds perms granted →
        calls.Holds perms' (changed op (gperms ++ nperms.getD []) <| if clear then fun _ => false else granted) := by
  obtain ⟨perms₁, hclear, hholds₁⟩ : ∃ perms₁, (if clear then calls.clearPerms perms else some perms) = some perms₁ ∧
      ∀ granted, calls.Holds perms granted → calls.Holds perms₁ (if clear then fun _ => false else granted) := by
    cases clear
    case false => exact ⟨perms, rfl, fun _ h => h⟩
    case true  =>
      obtain ⟨perms₁, hclear, hholds⟩ := hw.clear perms
      exact ⟨perms₁, hclear, fun _ _ => hholds⟩
  have hend := isEntryEnd_head hr
  cases nperms
  case none        =>
    obtain ⟨perms₂, hparse, hholds₂⟩ := @parsePerms_map _ _ rest perms₁ op hw gperms fun c hc => by
      obtain rfl | rfl := hend c hc <;> decide
    refine ⟨perms₂, ?_, fun granted h => ?_⟩
    · rw [parsePermissions, hclear]
      dsimp only [ModeEntry.permsText]
      rw [hparse]
      cases rest
      case nil          => rfl
      case cons c rest =>
        obtain rfl | rfl := hend c rfl <;> rfl
    · rw [Option.getD_none, List.append_nil]
      exact hholds₂ _ <| hholds₁ _ h
  case some nperms =>
    obtain ⟨perms₂, hparse₂, hholds₂⟩ := @parsePerms_map _ _ ('(' :: (nperms.map AclPerm.char ++ ')' :: rest)) perms₁ op hw
      gperms fun c hc => by cases hc; decide
    obtain ⟨perms₃, hparse₃, hholds₃⟩ := @parsePerms_map _ _ (')' :: rest) perms₂ op hw nperms fun c hc => by
      cases hc
      decide
    refine ⟨perms₃, ?_, fun granted h => ?_⟩
    · rw [parsePermissions, hclear]
      have htext : ModeEntry.permsText gperms (some nperms) ++ rest =
          gperms.map AclPerm.char ++ '(' :: (nperms.map AclPerm.char ++ ')' :: rest) := by
        simp [ModeEntry.permsText]
      rw [htext]
      dsimp only
      rw [hparse₂]
      have hparse₃' : parsePerms calls op cfValidNpermsPosix (nperms.map AclPerm.char ++ ')' :: rest) perms₂ =
          (true, ')' :: rest, perms₃) := hparse₃
      simp [hparse₃']
    · intro p
      rw [hholds₃ _ (hholds₂ _ <| hholds₁ _ h) p, changed, Option.getD_some]
      by_cases hn : p ∈ nperms <;> by_cases hg : p ∈ gperms <;> simp [hn, hg]

theorem parseOp_of_not_mem (h : ∀ c ∈ mode.head?, c ∉ cfValidOpsMethodAppend) : parseOp mode = (.add, true, mode) := by
  fun_cases parseOp mode
  case case4 => rfl
  all_goals exact absurd (h _ rfl) (by decide)

theorem permsText_head (gperms : List AclPerm) (nperms : Option (List AclPerm)) (hr : IsEntryEnd rest) :
    ∀ c ∈ (ModeEntry.permsText gperms nperms ++ rest).head?, c ∉ cfValidOpsMethodAppend := by
  intro c hc
  cases gperms
  case cons perm _ =>
    cases nperms <;> cases hc <;> cases perm <;> decide
  case nil         =>
    cases nperms
    case some => cases hc; decide
    case none => obtain rfl | rfl := isEntryEnd_head hr c hc <;> decide

-- The function goes through an entry with one operator at most.
theorem parseModeEntry_text (hw : calls.Work) (entry : ModeEntry) (hr : IsEntryEnd rest) :
    ∃ perms', parseModeEntry calls (entry.text ++ rest) perms = some (true, rest, perms') ∧
      ∀ granted, calls.Holds perms granted → calls.Holds perms' (entry.apply granted) := by
  obtain ⟨op, gperms, nperms⟩ := entry
  have hparse (op : ModeOp) (clear : Bool) := @parsePermissions_text _ _ rest perms op hw gperms nperms clear hr
  simp only [ModeEntry.text, parseModeEntry_eq]
  cases op
  case none    =>
    have ⟨perms', hp, hholds⟩ := hparse .add true
    refine ⟨perms', ?_, fun granted h p => (hholds granted h p).trans <| congrArg some ?_⟩
    · simpa [parseOp_of_not_mem <| permsText_head gperms nperms hr] using hp
    · simp [changed, ModeEntry.apply, ModeEntry.permissions]
  case some op =>
    cases op
    case plus   =>
      have ⟨perms', hp, hholds⟩ := hparse .add false
      refine ⟨perms', hp, fun granted h p => (hholds granted h p).trans <| congrArg some ?_⟩
      simp only [changed, ModeEntry.apply, ModeEntry.permissions]
      by_cases hmem : p ∈ gperms ++ nperms.getD [] <;> simp only [hmem] <;> simp
    case minus  =>
      have ⟨perms', hp, hholds⟩ := hparse .del false
      refine ⟨perms', hp, fun granted h p => (hholds granted h p).trans <| congrArg some ?_⟩
      simp only [changed, ModeEntry.apply, ModeEntry.permissions]
      by_cases hmem : p ∈ gperms ++ nperms.getD [] <;> simp only [hmem] <;> simp
    case equals =>
      have ⟨perms', hp, hholds⟩ := hparse .add true
      refine ⟨perms', hp, fun granted h p => (hholds granted h p).trans <| congrArg some ?_⟩
      simp [changed, ModeEntry.apply, ModeEntry.permissions]

-- The function stops at a second operator.
theorem parseModeEntry_operators (hw : calls.Work) (op op' : Operator) :
    ∃ perms', parseModeEntry calls (op.char :: op'.char :: mode) perms = some (true, op'.char :: mode, perms') := by
  have hstop (perms : σ) (op : ModeOp) : parsePerms calls op cfValidGperms (op'.char :: mode) perms =
      (true, op'.char :: mode, perms) := if_neg <| by cases op' <;> decide
  have hparse (op : ModeOp) (clear : Bool) : ∃ perms',
      parsePermissions calls op clear (op'.char :: mode) perms = some (true, op'.char :: mode, perms') := by
    have ⟨perms', hclear⟩ : ∃ perms', (if clear then calls.clearPerms perms else some perms) = some perms' := by
      cases clear
      case false => exact ⟨perms, rfl⟩
      case true  => exact (hw.clear perms).imp fun _ h => h.left
    refine ⟨perms', ?_⟩
    rw [parsePermissions, hclear]
    dsimp only
    rw [hstop]
    cases op' <;> rfl
  cases op
  case plus   => exact hparse .add false
  case minus  => exact hparse .del false
  case equals => exact hparse .add true

theorem parseModeEntries_stop (h : parseModeEntry calls mode perms = some (true, rest, perms'))
    (hr : ∀ entries, rest ≠ ',' :: entries) :
    parseModeEntries calls mode perms = some (true, rest, perms') := by
  rw [parseModeEntries]
  split
  case h_1 he => exact absurd (Prod.mk.inj (Prod.mk.inj <| Option.some.inj <| h.symm.trans he).right).left <| hr _
  case h_2    => exact h

theorem parseModeEntries_comma (h : parseModeEntry calls mode perms = some (true, ',' :: rest, perms')) :
    parseModeEntries calls mode perms = parseModeEntries calls rest perms' := by
  rw [parseModeEntries]
  split
  case h_1 he =>
    cases h.symm.trans he
    rfl
  case h_2 hn => exact absurd h <| hn _ _

-- The function goes through all entries if they have one operator at most.
theorem parseModeEntries_text (hw : calls.Work) (entries : List ModeEntry) (hne : entries ≠ []) (hr : IsModeEnd rest) :
    ∃ perms', parseModeEntries calls (modeText entries ++ rest) perms = some (true, rest, perms') ∧
      ∀ granted, calls.Holds perms granted → calls.Holds perms' (applyEntries entries granted) := by
  induction entries generalizing perms
  case nil                    => exact absurd rfl hne
  case cons entry entries ih =>
    by_cases hlast : entries = []
    case pos =>
      subst hlast
      have ⟨perms', hparse, hholds⟩ := @parseModeEntry_text _ _ rest perms hw entry (.inl hr)
      refine ⟨perms', ?_, hholds⟩
      have htext : modeText [entry] = entry.text := List.intercalate_singleton
      rw [htext]
      refine parseModeEntries_stop hparse fun entries he => ?_
      obtain rfl | ⟨fields, rfl⟩ := hr <;> nomatch he
    case neg =>
      have hr' : IsEntryEnd (',' :: (modeText entries ++ rest)) := .inr ⟨_, rfl⟩
      have ⟨perms₁, hparse₁, hholds₁⟩ := @parseModeEntry_text _ _ _ perms hw entry hr'
      have ⟨perms₂, hparse₂, hholds₂⟩ := @ih perms₁ hlast
      refine ⟨perms₂, ?_, fun granted h => hholds₂ _ <| hholds₁ granted h⟩
      have htext : modeText (entry :: entries) ++ rest = entry.text ++ ',' :: (modeText entries ++ rest) := by
        rw [modeText, List.map_cons, List.intercalate_cons_of_ne_nil <| mt List.map_eq_nil_iff.mp hlast, modeText]
        simp
      rw [htext, parseModeEntries_comma hparse₁, hparse₂]

def scannedText (entries : List ScannedEntry) : CString :=
  [','].intercalate <| entries.map ScannedEntry.text

theorem scannedText_cons (entry : ScannedEntry) {entries : List ScannedEntry} (hne : entries ≠ []) :
    scannedText (entry :: entries) = entry.text ++ ',' :: scannedText entries := by
  rw [scannedText, List.map_cons, List.intercalate_cons_of_ne_nil <| mt List.map_eq_nil_iff.mp hne, scannedText]
  simp

theorem ScannedEntry.text_modeEntry {entry : ScannedEntry} (h : entry.ops.length ≤ 1) :
    entry.modeEntry.text = entry.text := by
  obtain ⟨ops, gperms, nperms⟩ := entry
  match ops, h with
  | [], _   => rfl
  | [_], _  => rfl

-- The function stops in an entry with several operators.
theorem parseModeEntries_operators (hw : calls.Work) (entries : List ScannedEntry)
    (h : ∃ entry ∈ entries, 1 < entry.ops.length) : ∃ (op : Operator) (mode : CString) (perms' : σ),
      parseModeEntries calls (scannedText entries ++ rest) perms = some (true, op.char :: mode, perms') := by
  induction entries generalizing perms
  case nil                    =>
    have ⟨_, hm, _⟩ := h
    nomatch hm
  case cons entry entries ih =>
    by_cases hops : entry.ops.length ≤ 1
    case neg =>
      obtain ⟨ops, gperms, nperms⟩ := entry
      match ops, hops with
      | [], hops              => exact absurd (Nat.zero_le 1) hops
      | [_], hops             => exact absurd le_rfl hops
      | op :: op' :: ops, _ =>
        have ⟨tail, htail⟩ : ∃ tail, scannedText (⟨op :: op' :: ops, gperms, nperms⟩ :: entries) ++ rest =
            op.char :: op'.char :: tail := by
          rw [scannedText, List.map_cons]
          cases entries.map ScannedEntry.text
          case nil         => exact ⟨_, by rw [List.intercalate_singleton]; rfl⟩
          case cons text _ => exact ⟨_, by rw [List.intercalate_cons_cons]; rfl⟩
        have ⟨perms', hparse⟩ := @parseModeEntry_operators _ _ tail perms hw op op'
        refine ⟨op', tail, perms', ?_⟩
        rw [htail]
        refine parseModeEntries_stop hparse fun entries he => ?_
        cases op' <;> nomatch he
    case pos =>
      have ⟨late, hlate, hlops⟩ := h
      have hlater : late ∈ entries := (List.mem_cons.mp hlate).resolve_left fun he =>
        absurd hops <| Nat.not_le_of_lt <| he ▸ hlops
      have hne : entries ≠ [] := List.ne_nil_of_mem hlater
      have hr' : IsEntryEnd (',' :: (scannedText entries ++ rest)) := .inr ⟨_, rfl⟩
      have ⟨perms₁, hparse₁, _⟩ := @parseModeEntry_text _ _ _ perms hw entry.modeEntry hr'
      have ⟨op, mode, perms₂, hparse₂⟩ := @ih perms₁ ⟨late, hlater, hlops⟩
      refine ⟨op, mode, perms₂, ?_⟩
      have htext : scannedText (entry :: entries) ++ rest = entry.modeEntry.text ++ ',' :: (scannedText entries ++ rest) := by
        rw [scannedText_cons _ hne, ScannedEntry.text_modeEntry hops]
        simp
      rw [htext, parseModeEntries_comma hparse₁, hparse₂]

theorem not_mem_text (entry : ScannedEntry) (c : Char) (hc : c = ':' ∨ c = ',') : c ∉ entry.text := by
  have hop (op : Operator) : op.char ≠ c := by obtain rfl | rfl := hc <;> cases op <;> decide
  have hperm (perm : AclPerm) : perm.char ≠ c := by obtain rfl | rfl := hc <;> cases perm <;> decide
  have hopen : c ≠ '(' := by obtain rfl | rfl := hc <;> decide
  have hclose : c ≠ ')' := by obtain rfl | rfl := hc <;> decide
  obtain ⟨ops, gperms, nperms⟩ := entry
  cases nperms <;> simp [ScannedEntry.text, ModeEntry.permsText, hop, hperm, hopen, hclose]

theorem text_operators (entry : ScannedEntry) :
    (entry.text.takeWhile (· ∈ cfValidOpsMethodAppend)).length = entry.ops.length := by
  have hops : ∀ c ∈ entry.ops.map Operator.char, decide (c ∈ cfValidOpsMethodAppend) = true := by
    intro c hc
    have ⟨op, _, he⟩ := List.mem_map.mp hc
    exact decide_eq_true <| he ▸ @Operator.char_mem .append op
  have hperms : (ModeEntry.permsText entry.gperms entry.nperms).takeWhile (· ∈ cfValidOpsMethodAppend) = [] := by
    have hhead := @permsText_head [] entry.gperms entry.nperms <| .inl <| .inl rfl
    rw [List.append_nil] at hhead
    cases ht : ModeEntry.permsText entry.gperms entry.nperms
    case nil       => rfl
    case cons c _ =>
      rw [ht] at hhead
      exact List.takeWhile_cons_of_neg <| by simpa using hhead c rfl
  rw [ScannedEntry.text, List.takeWhile_append_of_pos hops, hperms, List.append_nil, List.length_map]

theorem not_mem_scannedText (entries : List ScannedEntry) : ':' ∉ scannedText entries := by
  induction entries
  case nil                    => exact List.not_mem_nil
  case cons entry entries ih =>
    have hentry := not_mem_text entry ':' (.inl rfl)
    by_cases hlast : entries = []
    case pos =>
      subst hlast
      rwa [scannedText, List.map_singleton, List.intercalate_singleton]
    case neg =>
      rw [scannedText_cons _ hlast]
      simp [hentry, ih]

theorem singleOperators_iff {entries : List ScannedEntry} (hne : entries ≠ []) (hr : IsModeEnd rest) :
    SingleOperators (scannedText entries ++ rest) ↔ ∀ entry ∈ entries, entry.ops.length ≤ 1 := by
  have hcolon : ∀ c ∈ scannedText entries, decide (c ≠ ':') = true :=
    fun c hc => decide_eq_true fun he => not_mem_scannedText entries <| he ▸ hc
  have hmode : (scannedText entries ++ rest).takeWhile (· ≠ ':') = scannedText entries := by
    rw [List.takeWhile_append_of_pos hcolon]
    obtain rfl | ⟨fields, rfl⟩ := hr <;> simp
  have hcomma : ∀ text ∈ entries.map ScannedEntry.text, ',' ∉ text :=
    List.forall_mem_map.mpr fun entry _ => not_mem_text entry ',' (.inr rfl)
  rw [SingleOperators, hmode, scannedText, List.splitOn_intercalate _ hcomma <| mt List.map_eq_nil_iff.mp hne,
    List.forall_mem_map]
  exact forall₂_congr fun entry _ => by rw [text_operators]

theorem checkModeSyntax_entries (h : (checkModeSyntax method.validOps cfValidNpermsPosix mode).1 = true)
    (hmode : ¬IsModeEnd mode) : (checkModeEntries method.validOps cfValidNpermsPosix mode).1 = true := by
  rw [checkModeSyntax] at h
  · exact h
  · exact fun he => hmode <| .inl he
  · exact fun _ he => hmode <| .inr ⟨_, he⟩

theorem parseModePosixLinux_entries (hmode : ¬IsModeEnd mode) :
    parseModePosixLinux calls mode perms = parseModeEntries calls mode perms := by
  rw [parseModePosixLinux]
  · exact fun he => hmode <| .inl he
  · exact fun _ he => hmode <| .inr ⟨_, he⟩

theorem parseModePosixLinux_isModeEnd (hw : calls.Work) (hmode : IsModeEnd mode) :
    ∃ entries rest perms', ModeObeyed calls mode perms entries rest perms' := by
  have ⟨granted, hgranted⟩ := hw.get perms
  have ⟨perms', hclear, hholds⟩ := hw.clear perms
  refine ⟨[⟨none, [], none⟩], mode, perms', ?_, rfl, hmode, granted, hgranted, fun perm => ?_⟩
  · obtain rfl | ⟨fields, rfl⟩ := hmode <;> rw [parseModePosixLinux, hclear]
  · simpa [applyEntries, ModeEntry.apply, ModeEntry.permissions] using hholds perm

theorem modeText_modeEntry {entries : List ScannedEntry} (h : ∀ entry ∈ entries, entry.ops.length ≤ 1) :
    modeText (entries.map ScannedEntry.modeEntry) = scannedText entries := by
  rw [modeText, scannedText, List.map_map]
  congr 1
  exact List.map_congr_left fun entry hentry => ScannedEntry.text_modeEntry <| h entry hentry

-- A mode that has been found valid is obeyed if and only if none of its entries has several operators: the check skips
-- all of them, and the parser stops at the second one.
theorem parseModePosixLinux_obeys_iff (calls : PermsetCalls σ) (hw : calls.Work) (method : AclMethod) (mode : CString)
    (perms : σ) (h : (checkModeSyntax method.validOps cfValidNpermsPosix mode).1 = true) :
    (∃ entries rest perms', ModeObeyed calls mode perms entries rest perms') ↔ SingleOperators mode := by
  by_cases hmode : IsModeEnd mode
  case pos =>
    refine iff_of_true (parseModePosixLinux_isModeEnd hw hmode) ?_
    obtain rfl | ⟨fields, rfl⟩ := hmode <;> simp [SingleOperators]
  case neg =>
    have ⟨entries, rest, hne, hrest, htext⟩ := checkModeEntries_scanned <| checkModeSyntax_entries h hmode
    have htext : mode = scannedText entries ++ rest := htext
    have hparse := @parseModePosixLinux_entries _ calls mode perms hmode
    rw [htext, singleOperators_iff hne hrest, ← htext]
    constructor
    case mpr =>
      intro hops
      have hmodeText := modeText_modeEntry hops
      have ⟨perms', hread, hset⟩ := @parseModeEntries_text _ _ rest perms hw (entries.map ScannedEntry.modeEntry)
        (mt List.map_eq_nil_iff.mp hne) hrest
      have ⟨granted, hgranted⟩ := hw.get perms
      rw [hmodeText, ← htext, ← hparse] at hread
      exact ⟨_, rest, perms', hread, by rw [hmodeText, htext], hrest, granted, hgranted, hset granted hgranted⟩
    case mp  =>
      intro ⟨_, rest', perms', hobeyed⟩
      by_contra hops
      push Not at hops
      have ⟨op, mode', perms₁, hstop⟩ := @parseModeEntries_operators _ _ rest perms hw entries hops
      have he := hobeyed.parsed.symm.trans <| hparse.trans <| htext ▸ hstop
      cases he
      obtain he | ⟨fields, he⟩ := hobeyed.isEnd
      · nomatch he
      · cases op <;> nomatch he

-- A set of permissions that is what it holds.
def heldPermissions : PermsetCalls (AclPerm → Bool) where
  clearPerms _           := some fun _ => false
  addPerm perms perm    := some <| update perms perm true
  deletePerm perms perm := some <| update perms perm false
  getPerm perms perm    := some <| perms perm

theorem heldPermissions_work : heldPermissions.Work where
  get perms         := ⟨perms, fun _ => rfl⟩
  clear _           := ⟨_, rfl, fun _ => rfl⟩
  add perms perm    := ⟨_, rfl, fun granted h p => by
    have h : perms = granted := funext fun q => Option.some.inj <| h q
    rw [h]
    rfl⟩
  delete perms perm := ⟨_, rfl, fun granted h p => by
    have h : perms = granted := funext fun q => Option.some.inj <| h q
    rw [h]
    rfl⟩

theorem checkModeSyntax_plusRead :
    (checkModeSyntax AclMethod.append.validOps cfValidNpermsPosix ['+', 'r']).1 = true ∧
      ∃ entries rest perms', ModeObeyed heldPermissions ['+', 'r'] (fun _ => false) entries rest perms' := by
  have hvalid : (checkModeSyntax AclMethod.append.validOps cfValidNpermsPosix ['+', 'r']).1 = true := by decide +kernel
  exact ⟨hvalid, (parseModePosixLinux_obeys_iff heldPermissions heldPermissions_work .append ['+', 'r'] _ hvalid).mpr <|
    show SingleOperators _ by
      unfold SingleOperators
      decide +kernel⟩

-- The permission after the second operator is not granted.
theorem not_parseModePosixLinux_obeys :
    (checkModeSyntax AclMethod.append.validOps cfValidNpermsPosix ['=', '+', 'r']).1 = true ∧
      parseModePosixLinux heldPermissions ['=', '+', 'r'] (fun _ => true) = some (true, ['+', 'r'], fun _ => false) ∧
      ¬∃ entries rest perms', ModeObeyed heldPermissions ['=', '+', 'r'] (fun _ => true) entries rest perms' := by
  have hparse : parseModePosixLinux heldPermissions ['=', '+', 'r'] (fun _ => true) =
      some (true, ['+', 'r'], fun _ => false) := parseModeEntries_stop rfl nofun
  refine ⟨by decide +kernel, hparse, fun ⟨_, _, _, h⟩ => ?_⟩
  cases h.parsed.symm.trans hparse
  obtain he | ⟨_, he⟩ := h.isEnd <;> nomatch he

end CfEngine
