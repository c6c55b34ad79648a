import CfEngine.CfAgent.VerifyAcl
import Mathlib.Data.List.Basic

namespace CfEngine

inductive AclType
  | generic
  | posix
  | ntfs
  deriving DecidableEq

inductive AclDefault
  | noChange
  | specify
  | access
  | clear
  deriving DecidableEq

-- The attribute of a promise, where the fields may be unset.
structure AclAttribute where
  aclMethod         : Option AclMethod
  aclType           : Option AclType
  aclDefault        : Option AclDefault
  aclEntries        : List CString
  aclDefaultEntries : List CString

def cfValidNpermsNtfs : CString :=
  ['d', 'r', 't', 'x', 'T', 'w', 'a', 'b', 'B', 'p', 'c', 'o', 'D']

namespace AclType

def validNperms : AclType → CString
  | generic => []
  | posix   => cfValidNpermsPosix
  | ntfs    => cfValidNpermsNtfs

def denySupport : AclType → Bool
  | generic | posix => false
  | ntfs            => true

def maskSupport : AclType → Bool
  | posix          => true
  | generic | ntfs => false

end AclType

def setAclDefaults (isDir : Bool) (acl : AclAttribute) : AclAttribute :=
  { acl with
    aclMethod  := acl.aclMethod.or <| some .append
    aclType    := acl.aclType.or <| some .generic
    aclDefault := if acl.aclDefault = none ∧ isDir then some .noChange else acl.aclDefault }

def checkAclDefault (isDir : Bool) (acl : AclAttribute) : Bool :=
  match acl.aclDefault with
  | none   => true
  | some _ => isDir

def checkPermTypeSyntax (permt : CString) (deny_support : Bool) : Bool :=
  if permt = ['a', 'l', 'l', 'o', 'w'] then
    true
  else if permt = ['d', 'e', 'n', 'y'] then
    deny_support
  else
    false

-- The first element, with whether an id follows, and the string after it.
def aceElement (mask_support : Bool) : CString → Option (Bool × CString)
  | 'u' :: 's' :: 'e' :: 'r' :: ':' :: str        => some (true, str)
  | 'g' :: 'r' :: 'o' :: 'u' :: 'p' :: ':' :: str => some (true, str)
  | 'a' :: 'l' :: 'l' :: ':' :: str               => some (false, str)
  | 'm' :: 'a' :: 's' :: 'k' :: ':' :: str        => if mask_support then some (false, str) else none
  | _                                             => none

-- What the check of a string comes to. The scan may go on behind the terminator of the string.
inductive AceResult (α : Type)
  | valid (a : α)
  | malformed
  | outOfBounds

-- The first character of the id is passed before the next one is looked at.
def skipId : CString → AceResult CString
  | []       => .outOfBounds
  | ':' :: _ => .malformed
  | _ :: str =>
    match str.dropWhile (· ≠ ':') with
    | []       => .malformed
    | _ :: str => .valid str

def checkAceMode (valid_ops valid_nperms : CString) (deny_support : Bool) (str : CString) : Bool :=
  match checkModeSyntax valid_ops valid_nperms str with
  | (false, _)     => false
  | (true, [])     => true
  | (true, _ :: t) => checkPermTypeSyntax t deny_support

def checkAceSyntax (ace valid_ops valid_nperms : CString) (deny_support mask_support : Bool) : AceResult Unit :=
  match aceElement mask_support ace with
  | none              => .malformed
  | some (chkid, str) =>
    match if chkid then skipId str else .valid str with
    | .outOfBounds => .outOfBounds
    | .malformed   => .malformed
    | .valid str   => if checkAceMode valid_ops valid_nperms deny_support str then .valid () else .malformed

-- The loop over a list of entries ends with the first one that is not valid.
def checkAces (check : CString → AceResult Unit) (valid : Bool) : List CString → AceResult Bool
  | []         => .valid valid
  | ace :: aces =>
    match check ace with
    | .outOfBounds => .outOfBounds
    | .malformed   => .valid false
    | .valid _     => checkAces check true aces

-- After the defaults have been set, the method and the type are never missing.
def checkAclSyntax (isDir : Bool) (acl : AclAttribute) : AceResult Bool :=
  let acl := setAclDefaults isDir acl
  match acl.aclMethod, acl.aclType with
  | some method, some type =>
    if !checkAclDefault isDir acl then
      .valid false
    else
      let check ace := checkAceSyntax ace method.validOps type.validNperms type.denySupport type.maskSupport
      match checkAces check true acl.aclEntries with
      | .valid valid => checkAces check valid acl.aclDefaultEntries
      | .malformed   => .malformed
      | .outOfBounds => .outOfBounds
  | _, _                   => .malformed

-- Operators, permissions and native permissions, each of which may be missing.
inductive WellFormedModeEntry (valid_ops valid_nperms : CString) : CString → Prop
  | plain {o g : CString} (ho : ∀ c ∈ o, c ∈ valid_ops) (hg : ∀ c ∈ g, c ∈ cfValidGperms) :
    WellFormedModeEntry valid_ops valid_nperms (o ++ g)
  | native {o g n : CString} (ho : ∀ c ∈ o, c ∈ valid_ops) (hg : ∀ c ∈ g, c ∈ cfValidGperms)
    (hn : ∀ c ∈ n, c ∈ valid_nperms) : WellFormedModeEntry valid_ops valid_nperms (o ++ g ++ '(' :: n ++ [')'])

def WellFormedMode (valid_ops valid_nperms mode : CString) : Prop :=
  ∃ entries, entries ≠ [] ∧ mode = [','].intercalate entries ∧
    ∀ entry ∈ entries, WellFormedModeEntry valid_ops valid_nperms entry

inductive WellFormedElement (mask_support : Bool) : CString → Prop
  | user {id : CString} (ne : id ≠ []) (h : ':' ∉ id) :
    WellFormedElement mask_support (['u', 's', 'e', 'r', ':'] ++ id ++ [':'])
  | group {id : CString} (ne : id ≠ []) (h : ':' ∉ id) :
    WellFormedElement mask_support (['g', 'r', 'o', 'u', 'p', ':'] ++ id ++ [':'])
  | all : WellFormedElement mask_support ['a', 'l', 'l', ':']
  | mask (h : mask_support) : WellFormedElement mask_support ['m', 'a', 's', 'k', ':']

inductive WellFormedPermType (deny_support : Bool) : CString → Prop
  | allow : WellFormedPermType deny_support ['a', 'l', 'l', 'o', 'w']
  | deny (h : deny_support) : WellFormedPermType deny_support ['d', 'e', 'n', 'y']

inductive WellFormedAce (valid_ops valid_nperms : CString) (deny_support mask_support : Bool) : CString → Prop
  | mode {element mode : CString} (he : WellFormedElement mask_support element)
    (hm : WellFormedMode valid_ops valid_nperms mode) :
    WellFormedAce valid_ops valid_nperms deny_support mask_support (element ++ mode)
  | permType {element mode permt : CString} (he : WellFormedElement mask_support element)
    (hm : WellFormedMode valid_ops valid_nperms mode) (ht : WellFormedPermType deny_support permt) :
    WellFormedAce valid_ops valid_nperms deny_support mask_support (element ++ mode ++ ':' :: permt)

-- The separators are no operators, and the end of the native permissions is none of them.
structure ModeSeparated (valid_ops valid_nperms : CString) : Prop where
  ops    : ∀ c ∈ ['(', ',', ':'], c ∉ valid_ops
  nperms : ')' ∉ valid_nperms

section
variable {valid_ops valid_nperms s t e rest mode : CString} {entries : List CString} {deny_support mask_support : Bool}

theorem scanPastChars_append {set : CString} (hs : ∀ c ∈ s, c ∈ set) (ht : ∀ c ∈ t.head?, c ∉ set) :
    scanPastChars set (s ++ t) = t := by
  rw [scanPastChars, List.dropWhile_append_of_pos fun c hc => decide_eq_true <| hs c hc]
  cases t
  case nil      => rfl
  case cons c t => exact List.dropWhile_cons_of_neg <| by simpa using ht c rfl

-- Permissions that are operators, too, are passed with the operators.
theorem scanPastChars_scanPastChars {set set' : CString} (hs : ∀ c ∈ s, c ∈ set') (ht : ∀ c ∈ t.head?, c ∉ set ∧ c ∉ set') :
    scanPastChars set' (scanPastChars set (s ++ t)) = t := by
  induction s
  case nil         =>
    have hset : scanPastChars set t = t := @scanPastChars_append [] t set (by simp) fun c hc => (ht c hc).left
    rw [List.nil_append, hset]
    exact @scanPastChars_append [] t set' (by simp) fun c hc => (ht c hc).right
  case cons c s ih =>
    have hs' := fun d hd => hs d <| List.mem_cons_of_mem c hd
    by_cases hc : c ∈ set
    case pos =>
      have hstep : scanPastChars set (c :: s ++ t) = scanPastChars set (s ++ t) := List.dropWhile_cons_of_pos <| by simpa using hc
      rw [hstep, ih hs']
    case neg =>
      have hstep : scanPastChars set (c :: s ++ t) = c :: s ++ t := List.dropWhile_cons_of_neg <| by simpa using hc
      rw [hstep]
      exact scanPastChars_append hs fun d hd => (ht d hd).right

theorem scanPastChars_split (set s : CString) : ∃ o, s = o ++ scanPastChars set s ∧ ∀ c ∈ o, c ∈ set :=
  ⟨s.takeWhile (· ∈ set), List.takeWhile_append_dropWhile.symm, fun _ hc => by simpa using List.mem_takeWhile_imp hc⟩

variable (hsep : ModeSeparated valid_ops valid_nperms)
include hsep

theorem scan_entry (ho : ∀ c ∈ s, c ∈ valid_ops) (hg : ∀ c ∈ t, c ∈ cfValidGperms)
    (hrest : ∀ c ∈ rest.head?, c ∈ ['(', ',', ':']) :
    scanPastChars cfValidGperms (scanPastChars valid_ops (s ++ t ++ rest)) = rest := by
  have hstep : scanPastChars valid_ops (s ++ t ++ rest) = scanPastChars valid_ops (t ++ rest) := by
    rw [List.append_assoc, scanPastChars, List.dropWhile_append_of_pos fun c hc => decide_eq_true <| ho c hc]
    rfl
  rw [hstep]
  refine scanPastChars_scanPastChars hg fun c hc => ⟨hsep.ops c <| hrest c hc, ?_⟩
  rcases List.mem_cons.mp <| hrest c hc with rfl | h
  · decide
  · rcases List.mem_cons.mp h with rfl | h
    · decide
    · exact List.mem_singleton.mp h ▸ by decide

theorem checkModeEntry_complete (he : WellFormedModeEntry valid_ops valid_nperms e) (hrest : ∀ c ∈ rest.head?, c = ',' ∨ c = ':') :
    checkModeEntry valid_ops valid_nperms (e ++ rest) = (true, rest) := by
  have hnext : ∀ c ∈ rest.head?, c ∈ ['(', ',', ':'] := fun c hc => by
    rcases hrest c hc with rfl | rfl <;> decide
  rw [checkModeEntry]
  cases he
  case plain o g ho hg       =>
    rw [scan_entry hsep ho hg hnext]
    split
    case h_1 => exact absurd (hrest '(' rfl) <| by decide
    case h_2 => rfl
  case native o g n ho hg hn =>
    have hscan := @scan_entry valid_ops valid_nperms o g ('(' :: n ++ [')'] ++ rest) hsep ho hg (by simp)
    have hnative : scanPastChars valid_nperms (n ++ ([')'] ++ rest)) = [')'] ++ rest :=
      scanPastChars_append hn fun c hc => Option.some.inj hc ▸ hsep.nperms
    have htext : o ++ g ++ '(' :: n ++ [')'] ++ rest = o ++ g ++ ('(' :: n ++ [')'] ++ rest) := by
      simp only [List.append_assoc]
    rw [htext, hscan]
    simp only [List.cons_append, List.append_assoc] at hnative ⊢
    rw [hnative]
    rfl

omit hsep in
theorem checkModeEntry_sound (h : checkModeEntry valid_ops valid_nperms s = (true, rest)) :
    ∃ e, WellFormedModeEntry valid_ops valid_nperms e ∧ s = e ++ rest := by
  obtain ⟨o, hs, ho⟩ := scanPastChars_split valid_ops s
  obtain ⟨g, ht, hg⟩ := scanPastChars_split cfValidGperms (scanPastChars valid_ops s)
  rw [checkModeEntry] at h
  split at h
  case h_1 m hm =>
    obtain ⟨n, hm', hn⟩ := scanPastChars_split valid_nperms m
    split at h
    case h_1 m' hend =>
      cases h
      refine ⟨o ++ g ++ '(' :: n ++ [')'], .native ho hg hn, ?_⟩
      rw [hs, ht, hm, hm', hend]
      simp
    case h_2 => cases h
  case h_2      =>
    cases h
    refine ⟨o ++ g, .plain ho hg, ?_⟩
    rw [List.append_assoc, ←ht, ←hs]

theorem checkModeEntries_complete (hne : entries ≠ []) (hentries : ∀ e ∈ entries, WellFormedModeEntry valid_ops valid_nperms e)
    (hrest : ∀ c ∈ rest.head?, c = ':') :
    checkModeEntries valid_ops valid_nperms ([','].intercalate entries ++ rest) = (true, rest) := by
  induction entries
  case nil               => exact absurd rfl hne
  case cons e entries ih =>
    have he := hentries e List.mem_cons_self
    cases entries
    case nil             =>
      have hentry := checkModeEntry_complete hsep he fun c hc => .inr <| hrest c hc
      rw [List.intercalate_singleton, checkModeEntries, hentry]
      cases rest
      case nil         => rfl
      case cons c rest =>
        rw [hrest c rfl]
        rfl
    case cons e' entries =>
      have ih := ih (List.cons_ne_nil _ _) fun d hd => hentries d <| List.mem_cons_of_mem e hd
      have hentry := @checkModeEntry_complete _ _ e (',' :: ([','].intercalate (e' :: entries) ++ rest)) hsep he (by simp)
      have htext : [','].intercalate (e :: e' :: entries) ++ rest = e ++ ',' :: ([','].intercalate (e' :: entries) ++ rest) := by
        rw [List.intercalate_cons_cons]
        simp
      rw [htext, checkModeEntries, hentry]
      exact ih

omit hsep in
theorem checkModeEntries_sound (h : checkModeEntries valid_ops valid_nperms s = (true, rest)) :
    ∃ mode, WellFormedMode valid_ops valid_nperms mode ∧ s = mode ++ rest ∧ ∀ c ∈ rest.head?, c = ':' := by
  have single {e : CString} (he : WellFormedModeEntry valid_ops valid_nperms e) : WellFormedMode valid_ops valid_nperms e :=
    ⟨[e], List.cons_ne_nil _ _, List.intercalate_singleton.symm, fun d hd => List.mem_singleton.mp hd ▸ he⟩
  induction s using checkModeEntries.induct valid_ops valid_nperms
  case case1 s m hm      =>
    rw [checkModeEntries, hm] at h
    cases h
  case case2 s hm        =>
    rw [checkModeEntries, hm] at h
    cases h
    obtain ⟨e, he, hs⟩ := checkModeEntry_sound hm
    exact ⟨e, single he, hs, by simp⟩
  case case3 s m hm      =>
    rw [checkModeEntries, hm] at h
    cases h
    obtain ⟨e, he, hs⟩ := checkModeEntry_sound hm
    exact ⟨e, single he, hs, by simp⟩
  case case4 s m hm ih   =>
    rw [checkModeEntries, hm] at h
    obtain ⟨e, he, hs⟩ := checkModeEntry_sound hm
    obtain ⟨mode, ⟨entries, hne, rfl, hentries⟩, hm', hrest⟩ := ih h
    obtain ⟨e', entries, rfl⟩ := List.exists_cons_of_ne_nil hne
    refine ⟨[','].intercalate (e :: e' :: entries), ⟨_, List.cons_ne_nil _ _, rfl, ?_⟩, ?_, hrest⟩
    · exact List.forall_mem_cons.mpr ⟨he, hentries⟩
    · rw [hs, hm', List.intercalate_cons_cons]
      simp
  case case5 s m h₁ h₂ h₃ hm =>
    rw [checkModeEntries, hm] at h
    split at h <;> grind

theorem checkModeSyntax_eq : checkModeSyntax valid_ops valid_nperms s = checkModeEntries valid_ops valid_nperms s := by
  have hempty : WellFormedModeEntry valid_ops valid_nperms [] := @WellFormedModeEntry.plain _ _ [] [] (by simp) (by simp)
  have hentries : ∀ e ∈ [[]], WellFormedModeEntry valid_ops valid_nperms e := fun e he => List.mem_singleton.mp he ▸ hempty
  unfold checkModeSyntax
  split
  case h_1   => exact (checkModeEntries_complete hsep (List.cons_ne_nil _ _) hentries (by simp)).symm
  case h_2   => exact (checkModeEntries_complete hsep (List.cons_ne_nil _ _) hentries (by simp)).symm
  case h_3   => rfl

theorem checkModeSyntax_complete (hm : WellFormedMode valid_ops valid_nperms mode) (hrest : ∀ c ∈ rest.head?, c = ':') :
    checkModeSyntax valid_ops valid_nperms (mode ++ rest) = (true, rest) := by
  obtain ⟨entries, hne, rfl, hentries⟩ := hm
  rw [checkModeSyntax_eq hsep]
  exact checkModeEntries_complete hsep hne hentries hrest

omit hsep in
theorem checkPermTypeSyntax_iff : checkPermTypeSyntax t deny_support ↔ WellFormedPermType deny_support t := by
  constructor
  case mp  =>
    intro h
    unfold checkPermTypeSyntax at h
    split at h
    case isTrue ht  => exact ht ▸ .allow
    case isFalse ht =>
      split at h
      case isTrue ht'  => exact ht' ▸ .deny h
      case isFalse ht' => cases h
  case mpr =>
    intro h
    cases h
    case allow  => rfl
    case deny h =>
      rw [h]
      rfl

-- The text from the mode on.
inductive WellFormedRest (valid_ops valid_nperms : CString) (deny_support : Bool) : CString → Prop
  | mode {mode : CString} (hm : WellFormedMode valid_ops valid_nperms mode) : WellFormedRest valid_ops valid_nperms deny_support mode
  | permType {mode permt : CString} (hm : WellFormedMode valid_ops valid_nperms mode)
    (ht : WellFormedPermType deny_support permt) : WellFormedRest valid_ops valid_nperms deny_support (mode ++ ':' :: permt)

theorem checkAceMode_iff :
    checkAceMode valid_ops valid_nperms deny_support s ↔ WellFormedRest valid_ops valid_nperms deny_support s := by
  constructor
  case mp  =>
    intro h
    unfold checkAceMode at h
    split at h
    case h_1           => cases h
    case h_2 hm        =>
      rw [checkModeSyntax_eq hsep] at hm
      obtain ⟨mode, hmode, rfl, _⟩ := checkModeEntries_sound hm
      rw [List.append_nil]
      exact .mode hmode
    case h_3 c t hm    =>
      rw [checkModeSyntax_eq hsep] at hm
      obtain ⟨mode, hmode, rfl, hrest⟩ := checkModeEntries_sound hm
      rw [hrest c rfl]
      exact .permType hmode <| checkPermTypeSyntax_iff.mp h
  case mpr =>
    intro h
    cases h
    case mode hm            =>
      have hcheck := @checkModeSyntax_complete _ _ [] s hsep hm (by simp)
      rw [List.append_nil] at hcheck
      rw [checkAceMode, hcheck]
    case permType mode t hm ht =>
      have hcheck := @checkModeSyntax_complete _ _ (':' :: t) mode hsep hm (by simp)
      rw [checkAceMode, hcheck]
      exact checkPermTypeSyntax_iff.mpr ht

omit hsep in
-- The id is passed up to the colon after it.
theorem skipId_iff {u : CString} : skipId s = .valid u ↔ ∃ id, id ≠ [] ∧ ':' ∉ id ∧ s = id ++ ':' :: u := by
  constructor
  case mp  =>
    intro h
    unfold skipId at h
    split at h
    case h_1             => cases h
    case h_2             => cases h
    case h_3 c s hc      =>
      split at h
      case h_1          => cases h
      case h_2 d v hdrop =>
        cases h
        have hd := List.head?_dropWhile_not (· ≠ ':') s
        rw [hdrop] at hd
        obtain rfl : d = ':' := by simpa using hd
        have hsplit : s = s.takeWhile (· ≠ ':') ++ s.dropWhile (· ≠ ':') := List.takeWhile_append_dropWhile.symm
        refine ⟨c :: s.takeWhile (· ≠ ':'), List.cons_ne_nil _ _, ?_, ?_⟩
        · rw [List.mem_cons, not_or]
          exact ⟨fun he => hc he.symm, fun hm => by simpa using List.mem_takeWhile_imp hm⟩
        · rw [List.cons_append, ←hdrop, ←hsplit]
  case mpr =>
    rintro ⟨id, hne, hid, rfl⟩
    obtain ⟨c, id, rfl⟩ := List.exists_cons_of_ne_nil hne
    rw [List.mem_cons, not_or] at hid
    have hpass : ∀ d ∈ id, decide (d ≠ ':') = true := fun d hd => decide_eq_true fun he => hid.right <| he ▸ hd
    have hdrop : (id ++ ':' :: u).dropWhile (· ≠ ':') = ':' :: u := by
      rw [List.dropWhile_append_of_pos hpass]
      exact List.dropWhile_cons_of_neg <| by simp
    rw [List.cons_append]
    unfold skipId
    split
    case h_1 he       => cases he
    case h_2 he       =>
      cases he
      exact absurd rfl hid.left
    case h_3 d s _ he =>
      cases he
      rw [hdrop]

omit hsep in
theorem skipId_outOfBounds_iff : skipId s = .outOfBounds ↔ s = [] := by
  unfold skipId
  split
  case h_1 => simp
  case h_2 => simp
  case h_3 => split <;> simp

-- The string after the first element.
def passElement (mask_support : Bool) (ace : CString) : AceResult CString :=
  match aceElement mask_support ace with
  | none              => .malformed
  | some (chkid, str) => if chkid then skipId str else .valid str

omit hsep in
theorem checkAceSyntax_eq : checkAceSyntax s valid_ops valid_nperms deny_support mask_support =
    match passElement mask_support s with
    | .outOfBounds => .outOfBounds
    | .malformed   => .malformed
    | .valid str   => if checkAceMode valid_ops valid_nperms deny_support str then .valid () else .malformed := by
  rw [checkAceSyntax, passElement]
  cases aceElement mask_support s <;> rfl

omit hsep in
theorem passElement_valid_iff {u : CString} :
    passElement mask_support s = .valid u ↔ ∃ element, WellFormedElement mask_support element ∧ s = element ++ u := by
  constructor
  case mp  =>
    intro h
    unfold passElement aceElement at h
    split at h
    case h_1             => cases h
    case h_2 chkid str he =>
      split at he
      case h_1   =>
        cases he
        obtain ⟨id, hne, hid, rfl⟩ := skipId_iff.mp h
        exact ⟨_, .user hne hid, by simp⟩
      case h_2   =>
        cases he
        obtain ⟨id, hne, hid, rfl⟩ := skipId_iff.mp h
        exact ⟨_, .group hne hid, by simp⟩
      case h_3   =>
        cases he
        cases h
        exact ⟨_, .all, rfl⟩
      case h_4   =>
        split at he
        case isTrue hm  =>
          cases he
          cases h
          exact ⟨_, .mask hm, rfl⟩
        case isFalse hm => cases he
      case h_5   => cases he
  case mpr =>
    rintro ⟨element, helement, rfl⟩
    cases helement
    case user id hne hid  =>
      refine skipId_iff.mpr ⟨id, hne, hid, ?_⟩
      simp
    case group id hne hid =>
      refine skipId_iff.mpr ⟨id, hne, hid, ?_⟩
      simp
    case all              => rfl
    case mask hm          =>
      rw [hm]
      rfl

omit hsep in
theorem passElement_outOfBounds_iff : passElement mask_support s = .outOfBounds ↔
    s = ['u', 's', 'e', 'r', ':'] ∨ s = ['g', 'r', 'o', 'u', 'p', ':'] := by
  constructor
  case mp  =>
    intro h
    unfold passElement aceElement at h
    split at h
    case h_1             => cases h
    case h_2 chkid str he =>
      split at he
      case h_1   =>
        cases he
        exact .inl <| skipId_outOfBounds_iff.mp h ▸ rfl
      case h_2   =>
        cases he
        exact .inr <| skipId_outOfBounds_iff.mp h ▸ rfl
      case h_3   =>
        cases he
        cases h
      case h_4   =>
        split at he
        case isTrue hm  =>
          cases he
          cases h
        case isFalse hm => cases he
      case h_5   => cases he
  case mpr =>
    rintro (rfl | rfl)
    case inl => rfl
    case inr => rfl

omit hsep in
theorem wellFormedAce_iff : WellFormedAce valid_ops valid_nperms deny_support mask_support s ↔
    ∃ element, WellFormedElement mask_support element ∧
      ∃ t, s = element ++ t ∧ WellFormedRest valid_ops valid_nperms deny_support t := by
  constructor
  case mp  =>
    intro h
    cases h
    case mode element mode he hm           => exact ⟨element, he, mode, rfl, .mode hm⟩
    case permType element mode t he hm ht => exact ⟨element, he, mode ++ ':' :: t, List.append_assoc .., .permType hm ht⟩
  case mpr =>
    rintro ⟨element, he, t, rfl, hr⟩
    cases hr
    case mode hm            => exact .mode he hm
    case permType mode t hm ht => exact (List.append_assoc element mode _) ▸ .permType he hm ht

theorem checkAceSyntax_valid_iff :
    checkAceSyntax s valid_ops valid_nperms deny_support mask_support = .valid () ↔
      WellFormedAce valid_ops valid_nperms deny_support mask_support s := by
  rw [checkAceSyntax_eq, wellFormedAce_iff]
  cases hpass : passElement mask_support s
  case valid u     =>
    obtain ⟨element, helement, rfl⟩ := passElement_valid_iff.mp hpass
    have hmode := @checkAceMode_iff _ _ u deny_support hsep
    dsimp only
    split
    case isTrue hu  => exact iff_of_true rfl ⟨element, helement, u, rfl, hmode.mp hu⟩
    case isFalse hu =>
      refine iff_of_false nofun ?_
      rintro ⟨element', helement', t, ht, hrest⟩
      have hpass' := passElement_valid_iff.mpr ⟨element', helement', ht⟩
      rw [hpass] at hpass'
      cases hpass'
      exact hu <| hmode.mpr hrest
  case malformed   =>
    refine iff_of_false nofun ?_
    rintro ⟨element, helement, t, rfl, hrest⟩
    rw [passElement_valid_iff.mpr ⟨element, helement, rfl⟩] at hpass
    cases hpass
  case outOfBounds =>
    refine iff_of_false nofun ?_
    rintro ⟨element, helement, t, rfl, hrest⟩
    rw [passElement_valid_iff.mpr ⟨element, helement, rfl⟩] at hpass
    cases hpass

omit hsep in
theorem checkAceSyntax_outOfBounds_iff :
    checkAceSyntax s valid_ops valid_nperms deny_support mask_support = .outOfBounds ↔
      s = ['u', 's', 'e', 'r', ':'] ∨ s = ['g', 'r', 'o', 'u', 'p', ':'] := by
  rw [checkAceSyntax_eq, ←@passElement_outOfBounds_iff s mask_support]
  cases passElement mask_support s
  case valid u     =>
    dsimp only
    split <;> simp
  case malformed   => simp
  case outOfBounds => simp

end

-- The entries that are looked at, up to the first one that is malformed, are not truncated within the id.
def NoneTruncated (isAce : CString → Prop) (aces : List CString) : Prop :=
  ∀ l ace r, aces = l ++ ace :: r → (∀ a ∈ l, isAce a) → ace ≠ ['u', 's', 'e', 'r', ':'] ∧ ace ≠ ['g', 'r', 'o', 'u', 'p', ':']

namespace AclAttribute

def method (acl : AclAttribute) : AclMethod :=
  acl.aclMethod.getD .append

def type (acl : AclAttribute) : AclType :=
  acl.aclType.getD .generic

-- An access default can only be set on directories.
def DefaultValid (isDir : Bool) (acl : AclAttribute) : Prop :=
  acl.aclDefault ≠ none → isDir

def IsAce (acl : AclAttribute) (ace : CString) : Prop :=
  WellFormedAce acl.method.validOps acl.type.validNperms acl.type.denySupport acl.type.maskSupport ace

-- The verdict on the default entries replaces the one on the entries.
structure VerdictsKept (acl : AclAttribute) : Prop where
  entries : NoneTruncated acl.IsAce acl.aclEntries
  default : NoneTruncated acl.IsAce acl.aclDefaultEntries
  last    : acl.aclDefaultEntries ≠ [] → (∀ ace ∈ acl.aclDefaultEntries, acl.IsAce ace) → ∀ ace ∈ acl.aclEntries, acl.IsAce ace

end AclAttribute

section
variable {acl : AclAttribute} {isDir valid : Bool} {isAce : CString → Prop} {check : CString → AceResult Unit}
variable {ace : CString} {aces : List CString}

theorem modeSeparated (method : AclMethod) (type : AclType) : ModeSeparated method.validOps type.validNperms := by
  cases method <;> cases type
  all_goals exact ⟨by decide, by decide⟩

theorem noneTruncated_cons (ha : isAce ace) (h : NoneTruncated isAce (ace :: aces)) : NoneTruncated isAce aces := by
  rintro l a r rfl hl
  exact h (ace :: l) a r rfl <| List.forall_mem_cons.mpr ⟨ha, hl⟩

theorem not_truncated (hbounds : ∀ a, check a = .outOfBounds ↔ a = ['u', 's', 'e', 'r', ':'] ∨ a = ['g', 'r', 'o', 'u', 'p', ':'])
    (h : check ace ≠ .outOfBounds) : ace ≠ ['u', 's', 'e', 'r', ':'] ∧ ace ≠ ['g', 'r', 'o', 'u', 'p', ':'] :=
  ⟨fun he => h <| (hbounds ace).mpr <| .inl he, fun he => h <| (hbounds ace).mpr <| .inr he⟩

theorem checkAces_outcome (hvalid : ∀ a, check a = .valid () ↔ isAce a)
    (hbounds : ∀ a, check a = .outOfBounds ↔ a = ['u', 's', 'e', 'r', ':'] ∨ a = ['g', 'r', 'o', 'u', 'p', ':']) :
    (NoneTruncated isAce aces → ∃ v, checkAces check valid aces = .valid v ∧
        (v = true ↔ (aces = [] → valid) ∧ ∀ a ∈ aces, isAce a)) ∧
      (¬NoneTruncated isAce aces → checkAces check valid aces = .outOfBounds) := by
  induction aces generalizing valid
  case nil           =>
    refine ⟨fun _ => ⟨valid, rfl, by simp⟩, fun h => absurd ?_ h⟩
    intro l a r he
    simp at he
  case cons a aces ih =>
    rw [checkAces]
    cases ha : check a
    case valid       =>
      have haAce := (hvalid a).mp ha
      refine ⟨fun h => ?_, fun h => ?_⟩
      · obtain ⟨v, hv, hiff⟩ := (@ih true).left <| noneTruncated_cons haAce h
        refine ⟨v, hv, hiff.trans ?_⟩
        simp [haAce]
      · refine (@ih true).right fun hn => h ?_
        intro l b r he hl
        cases l
        case nil      =>
          cases he
          refine not_truncated hbounds ?_
          rw [ha]
          rintro ⟨⟩
        case cons c l =>
          cases he
          exact hn l b r rfl fun d hd => hl d <| List.mem_cons_of_mem _ hd
    case malformed   =>
      have haAce : ¬isAce a := fun h => by
        rw [(hvalid a).mpr h] at ha
        cases ha
      refine ⟨fun h => ⟨false, rfl, iff_of_false nofun fun hv => haAce <| hv.right a List.mem_cons_self⟩, fun h => absurd ?_ h⟩
      intro l b r he hl
      cases l
      case nil      =>
        cases he
        refine not_truncated hbounds ?_
        rw [ha]
        rintro ⟨⟩
      case cons c l =>
        cases he
        exact absurd (hl _ List.mem_cons_self) haAce
    case outOfBounds =>
      refine ⟨fun h => ?_, fun _ => rfl⟩
      obtain ⟨huser, hgroup⟩ := h [] a aces rfl (by simp)
      cases (hbounds a).mp ha
      case inl he => exact absurd he huser
      case inr he => exact absurd he hgroup

theorem checkAclDefault_iff : checkAclDefault isDir (setAclDefaults isDir acl) ↔ acl.DefaultValid isDir := by
  rw [checkAclDefault, setAclDefaults, AclAttribute.DefaultValid]
  cases isDir <;> cases acl.aclDefault <;> simp

theorem setAclDefaults_method : (setAclDefaults isDir acl).aclMethod = some acl.method := by
  rw [setAclDefaults, AclAttribute.method]
  cases acl.aclMethod <;> rfl

theorem setAclDefaults_type : (setAclDefaults isDir acl).aclType = some acl.type := by
  rw [setAclDefaults, AclAttribute.type]
  cases acl.aclType <;> rfl

end

-- The verdict is right and nothing is read behind a string, if and only if no truncated entry is looked at, and the default
-- entries do not hide a malformed one.
theorem checkAclSyntax_iff (isDir : Bool) (acl : AclAttribute) :
    (∃ valid, checkAclSyntax isDir acl = .valid valid ∧
        (valid = true ↔ acl.DefaultValid isDir ∧ (∀ ace ∈ acl.aclEntries, acl.IsAce ace) ∧
          ∀ ace ∈ acl.aclDefaultEntries, acl.IsAce ace)) ↔
      (acl.DefaultValid isDir → acl.VerdictsKept) := by
  have hsep := modeSeparated acl.method acl.type
  let check (ace : CString) :=
    checkAceSyntax ace acl.method.validOps acl.type.validNperms acl.type.denySupport acl.type.maskSupport
  have hvalid : ∀ a, check a = .valid () ↔ acl.IsAce a := fun a => checkAceSyntax_valid_iff hsep
  have hbounds : ∀ a, check a = .outOfBounds ↔ _ := fun a => checkAceSyntax_outOfBounds_iff
  have hcheck : checkAclSyntax isDir acl =
      if !checkAclDefault isDir (setAclDefaults isDir acl) then
        .valid false
      else
        match checkAces check true acl.aclEntries with
        | .valid valid => checkAces check valid acl.aclDefaultEntries
        | .malformed   => .malformed
        | .outOfBounds => .outOfBounds := by
    simp only [checkAclSyntax, setAclDefaults_method, setAclDefaults_type]
    rfl
  rw [hcheck]
  by_cases hdefault : acl.DefaultValid isDir
  case neg =>
    have hd : checkAclDefault isDir (setAclDefaults isDir acl) = false := Bool.eq_false_iff.mpr fun h => hdefault <| checkAclDefault_iff.mp h
    rw [hd]
    refine iff_of_true ⟨false, rfl, iff_of_false nofun fun h => hdefault h.left⟩ fun h => absurd h hdefault
  case pos =>
    rw [checkAclDefault_iff.mpr hdefault]
    simp only [hdefault, true_implies, true_and, Bool.not_true, Bool.false_eq_true, if_false]
    have hentries := @checkAces_outcome true acl.IsAce check acl.aclEntries hvalid hbounds
    by_cases hE : NoneTruncated acl.IsAce acl.aclEntries
    case neg =>
      rw [hentries.right hE]
      refine iff_of_false ?_ fun h => hE h.entries
      rintro ⟨v, ⟨⟩, _⟩
    case pos =>
      obtain ⟨v, hv, hviff⟩ := hentries.left hE
      have hdefaults := @checkAces_outcome v acl.IsAce check acl.aclDefaultEntries hvalid hbounds
      rw [hv]
      dsimp only
      by_cases hD : NoneTruncated acl.IsAce acl.aclDefaultEntries
      case neg =>
        rw [hdefaults.right hD]
        refine iff_of_false ?_ fun h => hD h.default
        rintro ⟨v, ⟨⟩, _⟩
      case pos =>
        obtain ⟨w, hw, hwiff⟩ := hdefaults.left hD
        simp only [implies_true, true_and] at hviff
        rw [hw]
        constructor
        case mp  =>
          rintro ⟨u, ⟨⟩, hu⟩
          refine ⟨hE, hD, fun hne hall => ?_⟩
          exact (hu.mp <| hwiff.mpr ⟨fun he => absurd he hne, hall⟩).left
        case mpr =>
          intro h
          refine ⟨w, rfl, hwiff.trans ⟨fun hall => ⟨?_, hall.right⟩, fun hall => ⟨fun _ => hviff.mpr hall.left, hall.right⟩⟩⟩
          by_cases hne : acl.aclDefaultEntries = []
          case pos => exact hviff.mp <| hall.left hne
          case neg => exact h.last hne hall.right

-- A malformed entry is hidden by a default entry that is well-formed.
theorem not_checkAclSyntax_iff : ¬∀ (isDir : Bool) (acl : AclAttribute),
    ∃ valid, checkAclSyntax isDir acl = .valid valid ∧
      (valid = true ↔ acl.DefaultValid isDir ∧ (∀ ace ∈ acl.aclEntries, acl.IsAce ace) ∧
        ∀ ace ∈ acl.aclDefaultEntries, acl.IsAce ace) := by
  intro h
  let acl : AclAttribute := ⟨none, none, some .specify, [['r', 'w']], [['a', 'l', 'l', ':', 'r']]⟩
  have hsep := modeSeparated acl.method acl.type
  have hgood : acl.IsAce ['a', 'l', 'l', ':', 'r'] := by
    have hentry : WellFormedModeEntry acl.method.validOps acl.type.validNperms ['r'] :=
      @WellFormedModeEntry.plain _ _ [] ['r'] (by simp) (by decide)
    exact .mode .all ⟨[['r']], by simp, rfl, fun e he => List.mem_singleton.mp he ▸ hentry⟩
  have hbad : ¬acl.IsAce ['r', 'w'] := fun hace => by
    cases (checkAceSyntax_valid_iff hsep).mpr hace
  have hdefaults : checkAclSyntax true acl =
      checkAces (checkAceSyntax · acl.method.validOps acl.type.validNperms acl.type.denySupport acl.type.maskSupport) false
        [['a', 'l', 'l', ':', 'r']] := rfl
  obtain ⟨valid, hvalid, hiff⟩ := h true acl
  rw [hdefaults, checkAces, (checkAceSyntax_valid_iff hsep).mpr hgood] at hvalid
  cases hvalid
  exact hbad <| (hiff.mp rfl).right.left _ List.mem_cons_self

end CfEngine
