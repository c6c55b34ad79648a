import CfEngine.Libpromises.Conversion
import CfEngine.Libpromises.ItemLib.Lists
import CfEngine.Libpromises.Vars
import CfEngine.Library.Outcome
import Mathlib.Data.Int.GCD

namespace CfEngine

def cfHighInit : Int := 99999

def cfLowInit : Int := -999999

inductive SyntaxTypeMatch
  | ok
  | errorUnexpanded
  | errorRangeBracketed
  | errorRangeMultipleItems
  | errorIntOutOfRange
  deriving DecidableEq

-- The functions on lists have not come to an end as they should, or the program has been ended.
inductive RangeFault
  | list (fault : EditFault)
  | programmingError
  deriving DecidableEq

def itemNames (items : Items) : Nat → Option Nat → EditOutcome (List CString)
  | _, none          => .ok []
  | 0, some _        => .error .endless
  | fuel + 1, some a => do
    let item ← items.deref (.item a)
    let names ← itemNames items fuel item.next
    .ok (item.payload :: names)

-- The names of the items that `SplitString` returns.
def splitNames (string : CString) : Except RangeFault (List CString) :=
  (do
    let list ← splitString string ','
    itemNames list.items list.items.fuel list.start).mapError .list

-- Both functions read their two bounds in this way.
def readBounds (lower upper : CString) : Int × Int :=
  ((assignedNumber (sscanf lower [.long]) 0).getD cfHighInit,
    if upper = ['i', 'n', 'f'] then cfInfinity else (assignedNumber (sscanf upper [.long]) 0).getD cfLowInit)

def unread (bounds : Int × Int) : Prop :=
  bounds.1 = cfHighInit ∨ bounds.2 = cfLowInit

instance (bounds : Int × Int) : Decidable (unread bounds) :=
  inferInstanceAs <| Decidable (_ ∨ _)

section
-- The time at which the agent has been started.
variable (cfStartTime : Int)

def checkRange (min max : Int) (s : CString) : Except RangeFault SyntaxTypeMatch := do
  let rangep ← splitNames s
  let outOfRange name := intFromString cfStartTime (some name) > max ∨ intFromString cfStartTime (some name) < min
  if rangep.length ≠ 2 then
    .ok .errorRangeMultipleItems
  else if rangep.any (outOfRange ·) then
    .ok .errorIntOutOfRange
  else
    .ok .ok

def checkParseIntRange (s range : CString) : Except RangeFault SyntaxTypeMatch :=
  if s.head? = some '[' ∨ s.head? = some '(' then
    .ok .errorRangeBracketed
  else do
    match ← splitNames range with
    | [lower, upper] =>
      let bounds := readBounds lower upper
      if unread bounds then
        .error .programmingError
      else if isCf3VarString s then
        .ok .errorUnexpanded
      else
        checkRange cfStartTime bounds.1 bounds.2 s
    | _              => .error .programmingError

end

-- A range that is read has a lower and an upper bound. There is always a first item.
def integerRangeFromString : Option CString → Except RangeFault (Option (Int × Int))
  | none          => .ok <| some (cfNoInt, cfNoInt)
  | some intrange => do
    match ← splitNames intrange with
    | lower :: upper :: _ =>
      let bounds := readBounds lower upper
      .ok <| if unread bounds then none else some bounds
    | _                   => .error <| .list .badPointer

-- The range that is used is the one that has been checked.
def UsesCheckedRange (start : Int) (s range : CString) : Prop :=
  ∃ lower upper first second, splitNames range = .ok [lower, upper] ∧ splitNames s = .ok [first, second] ∧
    integerRangeFromString (some s) = .ok (some (intFromString start (some first), intFromString start (some second))) ∧
    ∀ name ∈ [first, second], (readBounds lower upper).1 ≤ intFromString start (some name) ∧
      intFromString start (some name) ≤ (readBounds lower upper).2

-- The text begins with a number other than the one that stands for none, and there is no unit behind it that changes
-- the number.
def ReadsPlainly (missing : Int) (name : CString) : Prop :=
  ∃ n rest, scanNumber name = some (n, rest) ∧ n ≠ missing ∧
    (n = 0 ∨ n = cfNoInt ∨ ¬∃ c blanks, rest = c :: blanks ∧ ((unitFactor c).isSome ∨ c = '%') ∧ Blanks blanks)

section
variable {name rest s range : CString} {n a missing start : Int} {c : Char}

theorem toLong_eq_iff (h : -2 ^ 63 < missing ∧ missing < 2 ^ 63 - 1) : toLong n = missing ↔ n = missing := by
  simp only [toLong]
  omega

theorem gcd_factor {factor : Int} (h : unitFactor c = some factor) : Int.gcd (2 ^ 64) (factor - 1) = 1 := by
  unfold unitFactor at h
  split at h
  case h_7 => cases h
  all_goals
    cases h
    rfl

-- The factors without one are odd.
theorem wrapLong_factor_eq_iff {factor : Int} (h : unitFactor c = some factor) (ha : Representable a) :
    wrapLong (factor * a) = a ↔ a = 0 := by
  obtain ⟨hl, hu⟩ := ha
  constructor
  case mp  =>
    intro he
    have hdvd : (2 ^ 64 : Int) ∣ (factor - 1) * a := by
      rw [Int.sub_mul, Int.one_mul]
      generalize factor * a = x at he
      simp only [wrapLong] at he
      omega
    have hmultiple := Int.dvd_of_dvd_mul_right_of_gcd_one hdvd <| gcd_factor h
    omega
  case mpr =>
    rintro rfl
    rw [Int.mul_zero]
    rfl

theorem scaleInt_eq_iff (ha : Representable a) (hn : a ≠ cfNoInt) :
    scaleInt a c = a ↔ a = 0 ∨ ¬((unitFactor c).isSome ∨ c = '%') := by
  cases hu : unitFactor c
  case some factor => simp [scaleInt_factor hu, wrapLong_factor_eq_iff hu ha]
  case none        =>
    by_cases hp : c = '%'
    case neg => simp [scaleInt_other hu hp, hp]
    case pos =>
      subst hp
      have hiff : scaleInt a '%' = a ↔ a = 0 := by
        rw [scaleInt]
        simp only [cfNoInt] at hn ⊢
        split <;> omega
      simp [hiff]

theorem representable_toLong : Representable (toLong n) := by
  simp only [Representable, toLong]
  omega

-- The number is used as it is read, or the unit does not change it.
theorem scannedInt_eq_iff : scannedInt n rest = toLong n ↔
    n = 0 ∨ n = cfNoInt ∨ ¬∃ c blanks, rest = c :: blanks ∧ ((unitFactor c).isSome ∨ c = '%') ∧ Blanks blanks := by
  have hzero : toLong n = 0 ↔ n = 0 := toLong_eq_iff (by decide)
  cases rest
  case nil      => simp [scannedInt]
  case cons c t =>
    by_cases hn : toLong n = cfNoInt
    case pos =>
      have hn' := toLong_eq_cfNoInt_iff.mp hn
      rw [scannedInt, if_pos (.inl hn)]
      exact iff_of_true rfl <| .inr <| .inl hn'
    case neg =>
      have hn' : n ≠ cfNoInt := mt toLong_eq_cfNoInt_iff.mpr hn
      by_cases ht : isSpaceText t
      case pos =>
        have hb := isSpaceText_iff.mp ht
        rw [scannedInt_cons hn ht, scaleInt_eq_iff representable_toLong hn, hzero]
        simp [hn', hb]
      case neg =>
        have hb := mt isSpaceText_iff.mpr ht
        rw [scannedInt, if_pos <| .inr <| by simp [ht]]
        simp [hb]

theorem assigned_long : assignedNumber (sscanf name [.long]) 0 = (scanNumber name).map fun r => toLong r.1 := by
  rw [sscanf, ScanDirective.scan]
  cases scanNumber name <;> rfl

theorem readsPlainly_iff (hm : -2 ^ 63 < missing ∧ missing < 2 ^ 63 - 1) :
    ((assignedNumber (sscanf name [.long]) 0).getD missing ≠ missing ∧
      (assignedNumber (sscanf name [.long]) 0).getD missing = intFromString start (some name)) ↔
      ReadsPlainly missing name := by
  rw [assigned_long, ReadsPlainly]
  cases hscan : scanNumber name
  case none   => simp
  case some r =>
    obtain ⟨n, rest⟩ := r
    have hinf : name ≠ ['i', 'n', 'f'] := by
      rintro rfl
      cases hscan
    have hnow : name ≠ ['n', 'o', 'w'] := by
      rintro rfl
      cases hscan
    rw [intFromString_some hinf hnow hscan, Option.map_some, Option.getD_some, ne_eq,
      toLong_eq_iff hm, @eq_comm _ (toLong n), scannedInt_eq_iff]
    constructor
    case mp  =>
      rintro ⟨hne, hplain⟩
      exact ⟨n, rest, rfl, hne, hplain⟩
    case mpr =>
      rintro ⟨m, t, he, hne, hplain⟩
      cases he
      exact ⟨hne, hplain⟩

-- What the check has found if it accepts the text.
theorem of_checkParseIntRange (h : checkParseIntRange start s range = .ok .ok) :
    ∃ lower upper first second, splitNames range = .ok [lower, upper] ∧ splitNames s = .ok [first, second] ∧
      ∀ name ∈ [first, second], (readBounds lower upper).1 ≤ intFromString start (some name) ∧
        intFromString start (some name) ≤ (readBounds lower upper).2 := by
  rw [checkParseIntRange] at h
  split at h
  case isTrue  => cases h
  case isFalse =>
    obtain ⟨names, hnames, h⟩ := Except.bind_eq_ok_iff.mp h
    split at h
    case h_2 => cases h
    case h_1 lower upper =>
      dsimp only at h
      split_ifs at h
      case pos => cases h
      case neg =>
        unfold checkRange at h
        obtain ⟨items, hitems, h⟩ := Except.bind_eq_ok_iff.mp h
        dsimp only at h
        split_ifs at h with hlen hrange
        all_goals cases h
        case neg =>
          obtain ⟨first, second, rfl⟩ := List.length_eq_two.mp (not_not.mp hlen)
          refine ⟨lower, upper, first, second, hnames, hitems, fun name hname => ?_⟩
          have hin := mt List.any_eq_true.mpr hrange
          simp only [decide_eq_true_eq, not_exists, not_and] at hin
          have hname := hin name hname
          omega

theorem usesCheckedRange_iff (hcheck : checkParseIntRange start s range = .ok .ok) : UsesCheckedRange start s range ↔
    ∃ first second, splitNames s = .ok [first, second] ∧ ReadsPlainly cfHighInit first ∧
      (second = ['i', 'n', 'f'] ∨ ReadsPlainly cfLowInit second) := by
  obtain ⟨lower, upper, first, second, hrange, hitems, hwithin⟩ := of_checkParseIntRange hcheck
  have hupper : (readBounds first second).2 ≠ cfLowInit ∧
      (readBounds first second).2 = intFromString start (some second) ↔
      second = ['i', 'n', 'f'] ∨ ReadsPlainly cfLowInit second := by
    rw [readBounds]
    by_cases hinf : second = ['i', 'n', 'f']
    case pos =>
      rw [if_pos hinf]
      refine iff_of_true ⟨(by decide : cfInfinity ≠ cfLowInit), ?_⟩ (.inl hinf)
      rw [hinf]
      rfl
    case neg =>
      rw [if_neg hinf, readsPlainly_iff (by decide), or_iff_right hinf]
  have hlower := @readsPlainly_iff first cfHighInit start (by decide)
  have hused : integerRangeFromString (some s) =
      .ok (if unread (readBounds first second) then none else some (readBounds first second)) := by
    rw [integerRangeFromString, hitems]
    rfl
  have hboth : integerRangeFromString (some s) =
      .ok (some (intFromString start (some first), intFromString start (some second))) ↔
      ReadsPlainly cfHighInit first ∧ (second = ['i', 'n', 'f'] ∨ ReadsPlainly cfLowInit second) := by
    rw [hused, Except.ok.injEq, ←hlower, ←hupper]
    split_ifs with hunread
    · exact iff_of_false (by simp) fun h => hunread.elim h.left.left h.right.left
    · obtain ⟨hmin, hmax⟩ := not_or.mp hunread
      rw [Option.some.injEq, Prod.ext_iff]
      exact ⟨fun h => ⟨⟨hmin, h.left⟩, hmax, h.right⟩, fun h => ⟨h.left.right, h.right.right⟩⟩
  constructor
  case mp  =>
    rintro ⟨_, _, first', second', _, hitems', huse, _⟩
    cases hitems.symm.trans hitems'
    exact ⟨first, second, hitems, hboth.mp huse⟩
  case mpr =>
    rintro ⟨first', second', hitems', hplain⟩
    cases hitems.symm.trans hitems'
    exact ⟨lower, upper, first, second, hrange, hitems, hboth.mpr hplain, hwithin⟩

end

-- A range that the check accepts is the one that is used if and only if its bounds are read as they are.
theorem checkParseIntRange_iff (start : Int) (s range : CString) (h : checkParseIntRange start s range = .ok .ok) :
    UsesCheckedRange start s range ↔
      ∃ first second, splitNames s = .ok [first, second] ∧ ReadsPlainly cfHighInit first ∧
        (second = ['i', 'n', 'f'] ∨ ReadsPlainly cfLowInit second) :=
  usesCheckedRange_iff h

theorem checkParseIntRange_ports : checkParseIntRange 0 ['1', ',', '9'] ['0', ',', '9', '9'] = .ok .ok ∧
    UsesCheckedRange 0 ['1', ',', '9'] ['0', ',', '9', '9'] := by
  refine ⟨by decide, (checkParseIntRange_iff 0 _ _ <| by decide).mpr ⟨['1'], ['9'], by decide, ?_, .inr ?_⟩⟩
  · exact ⟨1, [], by decide, by decide, .inr <| .inr nofun⟩
  · exact ⟨9, [], by decide, by decide, .inr <| .inr nofun⟩

-- The units are left out.
theorem not_usesCheckedRange :
    ¬∀ start s range, checkParseIntRange start s range = .ok .ok → UsesCheckedRange start s range := by
  intro h
  have hused := h 0 ['1', 'k', ',', '2', 'k'] ['0', ',', 'i', 'n', 'f'] (by decide)
  rw [usesCheckedRange_iff (by decide)] at hused
  obtain ⟨first, second, hitems, ⟨n, rest, hscan, _, hplain⟩, _⟩ := hused
  have hnames : splitNames ['1', 'k', ',', '2', 'k'] = .ok [['1', 'k'], ['2', 'k']] := by decide
  have hnumber : scanNumber ['1', 'k'] = some (1, ['k']) := by decide
  cases hnames.symm.trans hitems
  cases hnumber.symm.trans hscan
  rcases hplain with hzero | hnone | hunit
  · cases hzero
  · cases hnone
  · exact hunit ⟨'k', [], rfl, .inl rfl, fun _ hc => nomatch hc⟩

end CfEngine
