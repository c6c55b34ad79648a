import CfEngine.Libutils.Strings
import Mathlib.Data.List.Lex

namespace CfEngine

inductive PackageVersionComparator
  | eq
  | neq
  | gt
  | lt
  | ge
  | le
  | none
  deriving DecidableEq, Repr

inductive VersionCmpResult
  | error
  | noMatch
  | matching
  deriving DecidableEq, Repr

-- The attributes that the comparison reads.
structure PackageAttributes where
  packageSelect              : PackageVersionComparator
  packageVersionLessCommand  : Option CString
  packageVersionEqualCommand : Option CString

-- The copy is made in a static buffer, whose last byte stays the terminator.
def canonifyChar (str : CString) (ch : Char) : CString :=
  (str.take (cfBufSize - 1)).map fun c => if c = ch then '_' else c

-- The numerals and the separators of a version. A numeral that fills its buffer may be followed by
-- another letter or digit. Then the separator is empty, and the character is lost.
def parsePackageVersion (version : CString) : List CString × List CString :=
  if version = [] then ([], [])
  else
    let numeral := (version.takeWhile Char.isAlphanum).take 29
    match h : version.drop numeral.length with
    | []      => ([numeral], [])
    | c :: sp =>
      let separator := if c.isAlphanum then [] else [c]
      have : sp.length < version.length := by
        have := congrArg List.length h
        simp at this
        omega
      let (num, sep) := parsePackageVersion sp
      (numeral :: num, separator :: sep)
termination_by version.length

-- Versions have compatible models if their separators agree as far as both have some.
def compatibleSeparators : List CString → List CString → Bool
  | pr :: separatorsPr, in' :: separatorsIn =>
    if CString.strcmp pr in' ≠ 0 then false
    else if separatorsPr = [] ∧ separatorsIn = [] then true
    else compatibleSeparators separatorsPr separatorsIn
  | _, _ => true

-- What one round of the loop over the numerals does.
inductive VersionStep
  | versionMatched
  | breakLoop
  | next

def versionStep (versionEqual : Bool) (cmpResult : Int) : PackageVersionComparator → VersionStep
  | .eq | .none => if versionEqual then .versionMatched else .next
  | .neq => if !versionEqual then .versionMatched else .next
  | .gt => if cmpResult < 0 then .versionMatched else if cmpResult > 0 then .breakLoop else .next
  | .lt => if cmpResult > 0 then .versionMatched else if cmpResult < 0 then .breakLoop else .next
  | .ge =>
    if cmpResult < 0 ∨ versionEqual then .versionMatched
    else if cmpResult > 0 then .breakLoop
    else .next
  | .le =>
    if cmpResult > 0 ∨ versionEqual then .versionMatched
    else if cmpResult < 0 then .breakLoop
    else .next

-- The first two cases are reached if the loop runs to the end of one list only.
def compareNumbers (versionEqual : Bool) (cmp : PackageVersionComparator) :
    List CString → List CString → Bool
  | _ :: _, [] => cmp = .lt ∨ cmp = .le
  | [], _ :: _ => cmp = .gt ∨ cmp = .ge
  | [], []     => false
  | pr :: numbersPr, in' :: numbersIn =>
    match versionStep versionEqual (CString.strcmp pr in') cmp with
    | .versionMatched => true
    | .breakLoop      => false
    | .next           => compareNumbers versionEqual cmp numbersPr numbersIn

def comparePackageVersionsInternal (v₁ v₂ : CString) (cmp : PackageVersionComparator) : Bool :=
  let (numbersPr, separatorsPr) := parsePackageVersion (canonifyChar v₁ ',')
  let (numbersIn, separatorsIn) := parsePackageVersion (canonifyChar v₂ ',')
  if compatibleSeparators separatorsPr separatorsIn then
    compareNumbers (CString.strcmp v₂ v₁ = 0) cmp numbersPr numbersIn
  else
    false

namespace VersionCmpResult

def ofBool (b : Bool) : VersionCmpResult :=
  if b then matching else noMatch

end VersionCmpResult

def invertResult : VersionCmpResult → VersionCmpResult
  | .error    => .error
  | .noMatch  => .matching
  | .matching => .noMatch

def andResults : VersionCmpResult → VersionCmpResult → VersionCmpResult
  | .error, _ | _, .error => .error
  | .matching, .matching  => .matching
  | _, _                  => .noMatch

section

-- What running a comparison command with two versions gives.
variable (runCmpCommand : CString → CString → CString → VersionCmpResult)

def compareVersionsLess (v₁ v₂ : CString) (a : PackageAttributes) : VersionCmpResult :=
  match a.packageVersionLessCommand with
  | some command => runCmpCommand command v₁ v₂
  | none         => .ofBool <| comparePackageVersionsInternal v₁ v₂ .gt

def compareVersionsEqual (v₁ v₂ : CString) (a : PackageAttributes) : VersionCmpResult :=
  match a.packageVersionEqualCommand with
  | some command => runCmpCommand command v₁ v₂
  | none =>
    if a.packageVersionLessCommand.isSome then
      andResults (invertResult <| compareVersionsLess runCmpCommand v₁ v₂ a)
        (invertResult <| compareVersionsLess runCmpCommand v₂ v₁ a)
    else
      .ofBool <| comparePackageVersionsInternal v₁ v₂ .eq

def compareVersions (v₁ v₂ : CString) (a : PackageAttributes) : VersionCmpResult :=
  match a.packageSelect with
  | .eq | .none => compareVersionsEqual runCmpCommand v₁ v₂ a
  | .neq        => invertResult <| compareVersionsEqual runCmpCommand v₁ v₂ a
  | .lt         => compareVersionsLess runCmpCommand v₁ v₂ a
  | .gt         => compareVersionsLess runCmpCommand v₂ v₁ a
  | .ge         => invertResult <| compareVersionsLess runCmpCommand v₁ v₂ a
  | .le         => invertResult <| compareVersionsLess runCmpCommand v₂ v₁ a

end

-- Lists of numerals are compared from the left.
abbrev NumbersLt : List CString → List CString → Prop :=
  List.Lex fun a b => CString.strcmp a b < 0

theorem NumbersLt.trans {n₁ n₂ n₃ : List CString} (h₁ : NumbersLt n₁ n₂) (h₂ : NumbersLt n₂ n₃) :
    NumbersLt n₁ n₃ :=
  List.lex_trans CString.strcmp_trans h₁ h₂

theorem NumbersLt.irrefl (n : List CString) : ¬NumbersLt n n :=
  List.lex_irrefl CString.strcmp_irrefl n

theorem NumbersLt.asymm {n₁ n₂ : List CString} (h : NumbersLt n₁ n₂) : ¬NumbersLt n₂ n₁ :=
  fun h' => irrefl _ (h.trans h')

theorem NumbersLt.trichotomy (n₁ n₂ : List CString) :
    NumbersLt n₁ n₂ ∨ n₁ = n₂ ∨ NumbersLt n₂ n₁ := by
  induction n₁ generalizing n₂ <;> cases n₂
  case nil.nil   => exact .inr <| .inl rfl
  case nil.cons  => exact .inl .nil
  case cons.nil  => exact .inr <| .inr .nil
  case cons.cons a as ih b bs =>
    have hswap := CString.strcmp_swap a b
    rcases Int.lt_trichotomy (CString.strcmp a b) 0 with h | h | h
    · exact .inl <| .rel h
    · cases CString.strcmp_eq_zero_iff.mp h
      exact (ih bs).imp .cons <| .imp (congrArg _) .cons
    · exact .inr <| .inr <| .rel <| by omega

theorem compatibleSeparators_refl (s : List CString) : compatibleSeparators s s := by
  induction s <;> simp_all [compatibleSeparators, CString.strcmp_eq_zero_iff.mpr]

theorem compatibleSeparators_symm (s₁ s₂ : List CString) :
    compatibleSeparators s₁ s₂ = compatibleSeparators s₂ s₁ := by
  induction s₁ generalizing s₂ <;> cases s₂ <;> simp only [compatibleSeparators]
  case cons.cons a as ih b bs =>
    simp only [CString.strcmp_swap a b, ih bs, and_comm, ne_eq, Int.neg_eq_zero]

theorem compareNumbers_gt_iff {e : Bool} {n₁ n₂ : List CString} :
    compareNumbers e .gt n₁ n₂ ↔ NumbersLt n₁ n₂ := by
  induction n₁ generalizing n₂ <;> cases n₂ <;> simp only [compareNumbers]
  case nil.nil  => simp [NumbersLt]
  case nil.cons => simp [NumbersLt]
  case cons.nil => simp [NumbersLt]
  case cons.cons a as ih b bs =>
    rw [NumbersLt, List.cons_lex_cons_iff, ← CString.strcmp_eq_zero_iff, versionStep]
    rcases Int.lt_trichotomy (CString.strcmp a b) 0 with h | h | h
    · simp [h]
    · simp [h, ih]
    · simp [h, Int.lt_asymm h, Int.ne_of_gt h]

theorem compareNumbers_eq_iff {e : Bool} {n₁ n₂ : List CString} :
    compareNumbers e .eq n₁ n₂ ↔ e ∧ n₁ ≠ [] ∧ n₂ ≠ [] := by
  induction n₁ generalizing n₂ <;> cases n₂ <;> simp only [compareNumbers, versionStep]
  case cons.cons ih _ _ =>
    cases e
    · simp [ih]
    · simp
  all_goals simp

-- The numerals and the separators that a version is compared by.
def versionNumbers (v : CString) : List CString :=
  (parsePackageVersion <| canonifyChar v ',').1

def versionSeparators (v : CString) : List CString :=
  (parsePackageVersion <| canonifyChar v ',').2

-- The versions that the comparison takes for versions of one model.
def CompatibleVersions (v₁ v₂ : CString) : Prop :=
  compatibleSeparators (versionSeparators v₁) (versionSeparators v₂)

theorem CompatibleVersions.symm {v₁ v₂ : CString} (h : CompatibleVersions v₁ v₂) :
    CompatibleVersions v₂ v₁ :=
  (compatibleSeparators_symm ..).trans h

theorem comparePackageVersionsInternal_eq (v₁ v₂ : CString) (cmp : PackageVersionComparator) :
    comparePackageVersionsInternal v₁ v₂ cmp =
      if compatibleSeparators (versionSeparators v₁) (versionSeparators v₂) then
        compareNumbers (CString.strcmp v₂ v₁ = 0) cmp (versionNumbers v₁) (versionNumbers v₂)
      else
        false :=
  rfl

theorem comparePackageVersionsInternal_gt_iff {v₁ v₂ : CString} :
    comparePackageVersionsInternal v₁ v₂ .gt ↔
      CompatibleVersions v₁ v₂ ∧ NumbersLt (versionNumbers v₁) (versionNumbers v₂) := by
  rw [comparePackageVersionsInternal_eq, CompatibleVersions]
  split
  case isTrue h  => simp [h, compareNumbers_gt_iff]
  case isFalse h => simp [h]

theorem comparePackageVersionsInternal_eq_iff {v₁ v₂ : CString} :
    comparePackageVersionsInternal v₁ v₂ .eq ↔ v₁ = v₂ ∧ versionNumbers v₁ ≠ [] := by
  rw [comparePackageVersionsInternal_eq]
  split
  case isTrue =>
    rw [compareNumbers_eq_iff, decide_eq_true_eq, CString.strcmp_eq_zero_iff]
    refine ⟨?_, ?_⟩
    · rintro ⟨rfl, h, -⟩
      exact ⟨rfl, h⟩
    · rintro ⟨rfl, h⟩
      exact ⟨rfl, h, h⟩
  case isFalse hc =>
    refine ⟨nofun, ?_⟩
    rintro ⟨rfl, -⟩
    exact absurd (compatibleSeparators_refl _) hc

-- The versions that a promise selects if it names no command to compare them with.
def VersionMatches (runCmpCommand : CString → CString → CString → VersionCmpResult)
    (cmp : PackageVersionComparator) (v₁ v₂ : CString) : Prop :=
  compareVersions runCmpCommand v₁ v₂ ⟨cmp, none, none⟩ = .matching

instance {run : CString → CString → CString → VersionCmpResult}
    {cmp : PackageVersionComparator} {v₁ v₂ : CString} :
    Decidable (VersionMatches run cmp v₁ v₂) :=
  inferInstanceAs (Decidable (_ = _))

section

variable {run : CString → CString → CString → VersionCmpResult} {v₁ v₂ v₃ : CString}

theorem ofBool_eq_matching_iff {b : Bool} : VersionCmpResult.ofBool b = .matching ↔ b := by
  cases b <;> simp [VersionCmpResult.ofBool]

theorem invertResult_ofBool_eq_matching_iff {b : Bool} :
    invertResult (.ofBool b) = .matching ↔ ¬b := by
  cases b <;> simp [VersionCmpResult.ofBool, invertResult]

theorem versionMatches_lt_iff :
    VersionMatches run .lt v₁ v₂ ↔
      CompatibleVersions v₁ v₂ ∧ NumbersLt (versionNumbers v₁) (versionNumbers v₂) :=
  ofBool_eq_matching_iff.trans comparePackageVersionsInternal_gt_iff

theorem versionMatches_eq_iff :
    VersionMatches run .eq v₁ v₂ ↔ v₁ = v₂ ∧ versionNumbers v₁ ≠ [] :=
  ofBool_eq_matching_iff.trans comparePackageVersionsInternal_eq_iff

theorem versionMatches_gt_iff : VersionMatches run .gt v₁ v₂ ↔ VersionMatches run .lt v₂ v₁ :=
  .rfl

theorem versionMatches_neq_iff : VersionMatches run .neq v₁ v₂ ↔ ¬VersionMatches run .eq v₁ v₂ :=
  invertResult_ofBool_eq_matching_iff.trans <| not_congr ofBool_eq_matching_iff.symm

theorem versionMatches_ge_iff : VersionMatches run .ge v₁ v₂ ↔ ¬VersionMatches run .lt v₁ v₂ :=
  invertResult_ofBool_eq_matching_iff.trans <| not_congr ofBool_eq_matching_iff.symm

theorem versionMatches_le_iff : VersionMatches run .le v₁ v₂ ↔ VersionMatches run .ge v₂ v₁ :=
  .rfl

theorem VersionMatches.lt_irrefl (v : CString) : ¬VersionMatches run .lt v v :=
  fun h => NumbersLt.irrefl _ (versionMatches_lt_iff.mp h).2

theorem VersionMatches.lt_trans_iff (h₁ : VersionMatches run .lt v₁ v₂)
    (h₂ : VersionMatches run .lt v₂ v₃) :
    VersionMatches run .lt v₁ v₃ ↔ CompatibleVersions v₁ v₃ := by
  rw [versionMatches_lt_iff] at h₁ h₂ ⊢
  exact and_iff_left <| h₁.2.trans h₂.2

theorem VersionMatches.lt_asymm (h : VersionMatches run .lt v₁ v₂) :
    ¬VersionMatches run .lt v₂ v₁ :=
  fun h' => (versionMatches_lt_iff.mp h).2.asymm (versionMatches_lt_iff.mp h').2

theorem VersionMatches.lt_not_eq (h : VersionMatches run .lt v₁ v₂) :
    ¬VersionMatches run .eq v₁ v₂ := by
  intro h'
  cases (versionMatches_eq_iff.mp h').1
  exact lt_irrefl _ h

-- Versions of one model whose numerals agree match, too.
theorem CompatibleVersions.ge_iff (h : CompatibleVersions v₁ v₂) :
    VersionMatches run .ge v₁ v₂ ↔
      VersionMatches run .gt v₁ v₂ ∨ VersionMatches run .eq v₁ v₂ ∨
        versionNumbers v₁ = versionNumbers v₂ := by
  rw [versionMatches_ge_iff, versionMatches_gt_iff, versionMatches_lt_iff, versionMatches_lt_iff]
  constructor
  case mp =>
    intro hge
    rcases NumbersLt.trichotomy (versionNumbers v₁) (versionNumbers v₂) with hn | hn | hn
    · exact absurd ⟨h, hn⟩ hge
    · exact .inr <| .inr hn
    · exact .inl ⟨h.symm, hn⟩
  case mpr =>
    rintro (⟨-, hn⟩ | he | hn) ⟨-, hlt⟩
    · exact hlt.asymm hn
    · rw [(versionMatches_eq_iff.mp he).1] at hlt
      exact NumbersLt.irrefl _ hlt
    · exact NumbersLt.irrefl _ (hn ▸ hlt)

theorem CompatibleVersions.le_iff (h : CompatibleVersions v₁ v₂) :
    VersionMatches run .le v₁ v₂ ↔
      VersionMatches run .lt v₁ v₂ ∨ VersionMatches run .eq v₁ v₂ ∨
        versionNumbers v₁ = versionNumbers v₂ := by
  rw [versionMatches_le_iff, h.symm.ge_iff, versionMatches_gt_iff, versionMatches_eq_iff,
    versionMatches_eq_iff]
  refine or_congr_right ⟨?_, ?_⟩
  · rintro (⟨rfl, hn⟩ | hn)
    · exact .inl ⟨rfl, hn⟩
    · exact .inr hn.symm
  · rintro (⟨rfl, hn⟩ | hn)
    · exact .inl ⟨rfl, hn⟩
    · exact .inr hn.symm

-- The built-in comparison is a strict order on the versions of one model only, and it takes the
-- versions of different models for neither less nor greater.
theorem compareVersions_order (run : CString → CString → CString → VersionCmpResult)
    (v₁ v₂ v₃ : CString) :
    ¬VersionMatches run .lt v₁ v₁ ∧
    (VersionMatches run .lt v₁ v₂ → VersionMatches run .lt v₂ v₃ →
      (VersionMatches run .lt v₁ v₃ ↔ CompatibleVersions v₁ v₃)) ∧
    (VersionMatches run .lt v₁ v₂ →
      ¬VersionMatches run .lt v₂ v₁ ∧ ¬VersionMatches run .eq v₁ v₂) ∧
    (VersionMatches run .gt v₁ v₂ ↔ VersionMatches run .lt v₂ v₁) ∧
    (VersionMatches run .neq v₁ v₂ ↔ ¬VersionMatches run .eq v₁ v₂) ∧
    (CompatibleVersions v₁ v₂ →
      (VersionMatches run .ge v₁ v₂ ↔
        VersionMatches run .gt v₁ v₂ ∨ VersionMatches run .eq v₁ v₂ ∨
          versionNumbers v₁ = versionNumbers v₂) ∧
      (VersionMatches run .le v₁ v₂ ↔
        VersionMatches run .lt v₁ v₂ ∨ VersionMatches run .eq v₁ v₂ ∨
          versionNumbers v₁ = versionNumbers v₂)) :=
  ⟨VersionMatches.lt_irrefl v₁, VersionMatches.lt_trans_iff, fun h => ⟨h.lt_asymm, h.lt_not_eq⟩,
    versionMatches_gt_iff, versionMatches_neq_iff, fun h => ⟨h.ge_iff, h.le_iff⟩⟩

-- "1.5" is less than "2", and "2" is less than "3-1", which has another model than "1.5".
theorem compareVersions_no_order :
    ¬∀ (run : CString → CString → CString → VersionCmpResult) (v₁ v₂ v₃ : CString),
      (VersionMatches run .lt v₁ v₂ → VersionMatches run .lt v₂ v₃ →
        VersionMatches run .lt v₁ v₃) ∧
      (VersionMatches run .ge v₁ v₃ ↔
        VersionMatches run .gt v₁ v₃ ∨ VersionMatches run .eq v₁ v₃) := by
  intro h
  have := h (fun _ _ _ => .error) ['1', '.', '5'] ['2'] ['3', '-', '1']
  exact absurd this <| by decide +kernel

end

end CfEngine
