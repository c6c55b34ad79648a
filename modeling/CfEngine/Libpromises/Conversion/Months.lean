import CfEngine.Libpromises.Conversion
import CfEngine.Library.Numerals
import Mathlib.Tactic.IntervalCases

namespace CfEngine

def monthText : List CString :=
  ["January", "February", "March", "April", "May", "June", "July", "August", "September", "October", "November",
    "December"].map String.toList

-- The first month whose name begins with the text.
def month2Int : Option CString → Int
  | none        => -1
  | some string =>
    match monthText.findIdx? (string.isPrefixOf ·) with
    | some i => i + 1
    | none   => -1

def days : List Int :=
  [31, 28, 31, 30, 31, 30, 31, 31, 30, 31, 30, 31]

def getMonthLength (month year : Int) : Int :=
  if month = 1 ∧ year % 4 = 0 then
    if year % 100 = 0 ∧ year % 400 ≠ 0 then days.getD month.toNat 0 else 29
  else
    days.getD month.toNat 0

def wrapMonth (month year : Int) : Int × Int :=
  if month < 0 then wrapMonth (month + 12) (year - 1) else (month, year)
termination_by (-month).toNat

structure MonthCount where
  year : Int
  tot_days : Int

-- The year that is left by one month is the one that the next month begins with.
def MonthCount.add (this_month : Int) (count : MonthCount) (i : Nat) : MonthCount :=
  let (month, year) := wrapMonth ((this_month - i).tmod 12) count.year
  { year, tot_days := count.tot_days + getMonthLength month year }

def months2Seconds (vmonth vyear : CString) (m : Int) : Int :=
  if m = 0 then
    0
  else
    let this_month := month2Int (some vmonth)
    let year := toInt (intFromString 0 (some vyear))
    let count := (List.range m.toNat).foldl (MonthCount.add this_month) { year, tot_days := 0 }
    count.tot_days * 3600 * 24

-- The texts of the current month, which is counted from zero, and of the current year.
def vmonth (month : Nat) : CString :=
  (monthText.getD month []).take 3

def vyear (year : Nat) : CString :=
  List.replicate (4 - (Nat.toDigits 10 year).length) '0' ++ Nat.toDigits 10 year

def LeapYear (year : Int) : Prop :=
  4 ∣ year ∧ (100 ∣ year → 400 ∣ year)

instance (year : Int) : Decidable (LeapYear year) :=
  inferInstanceAs <| Decidable (_ ∧ (_ → _))

-- Months are counted from zero.
def daysOfMonth (month : Nat) (year : Int) : Int :=
  match month with
  | 1              => if LeapYear year then 29 else 28
  | 3 | 5 | 8 | 10 => 30
  | _              => 31

-- The days of the months from the current one back. The month that is `i` months before it is in the year
-- that the quotient says.
def calendarDays (month : Nat) (year : Int) (m : Nat) : Int :=
  ((List.range m).map fun i : Nat => daysOfMonth (((month : Int) - i) % 12).toNat (year + ((month : Int) - i) / 12)).sum

-- The leap days of these months.
def leapDays (month : Nat) (year : Int) (m : Nat) : Nat :=
  (List.range m).countP fun i : Nat => (i + 1 - month : Int) % 12 = 0 ∧ LeapYear (year - (i + 1 - month) / 12)

-- Those which are counted if each month is taken for the next one, and every year has eleven leaps back.
def shiftedLeapDays (month : Nat) (year : Int) (m : Nat) : Nat :=
  (List.range m).countP fun i : Nat => (i - month : Int) % 12 = 0 ∧ LeapYear (year - 11 * ((i - month) / 12))

-- The month after the last one makes up for the first one and for the leap days.
def ShiftMakesUp (month : Nat) (year : Int) (m : Nat) : Prop :=
  days.getD ((month + 1) % 12) 0 + shiftedLeapDays month year m =
    days.getD (((month : Int) + 1 - m) % 12).toNat 0 + leapDays month year m

instance (month : Nat) (year : Int) (m : Nat) : Decidable (ShiftMakesUp month year m) :=
  inferInstanceAs <| Decidable (_ = _)

section
variable {month m n : Nat} {year : Int}

theorem month2Int_vmonth (h : month < 12) : month2Int (some <| vmonth month) = month + 1 := by
  have hall : ∀ month : Fin 12, month2Int (some <| vmonth month) = month.val + 1 := by decide
  exact hall ⟨month, h⟩

theorem decimal_padded {digits : CString} : decimal (List.replicate n '0' ++ digits) = decimal digits := by
  induction n
  case zero      => rfl
  case succ n ih =>
    rw [List.replicate_succ, List.cons_append]
    exact ih

theorem isDigit_of_mem_vyear {year : Nat} {c : Char} (h : c ∈ vyear year) : c.isDigit := by
  rw [vyear, List.mem_append, List.mem_replicate] at h
  rcases h with ⟨_, rfl⟩ | h
  · rfl
  · exact Numerals.isDigit_of_mem_toDigits h

theorem intFromString_vyear {year : Nat} (h : year < 2 ^ 63) (start : Int) :
    intFromString start (some <| vyear year) = year := by
  have hne : vyear year ≠ [] := List.append_ne_nil_of_right_ne_nil _ Nat.toDigits_ne_nil
  have hletter {s : CString} (hs : ∃ c ∈ s, ¬c.isDigit) : vyear year ≠ s := by
    rintro rfl
    obtain ⟨c, hc, hn⟩ := hs
    exact hn <| isDigit_of_mem_vyear hc
  have hvalue : decimal (vyear year) = year := decimal_padded.trans Numerals.value_toDigits
  have hscan : scanNumber (vyear year ++ []) = some ((year : Int), []) := by
    rw [scanNumber_signed (.plain hne fun _ => isDigit_of_mem_vyear) (by simp), hvalue]
  rw [List.append_nil] at hscan
  rw [intFromString_some (hletter ⟨'i', by decide⟩) (hletter ⟨'n', by decide⟩) hscan]
  exact toLong_of_representable ⟨by omega, by omega⟩

theorem wrapMonth_of_nonneg {month : Int} (h : 0 ≤ month) : wrapMonth month year = (month, year) := by
  rw [wrapMonth, if_neg (by omega)]

-- The remainder of a negative number is wrapped once, unless it is zero.
theorem wrapMonth_tmod {a : Int} :
    wrapMonth (a.tmod 12) year = (a % 12, if 0 ≤ a ∨ 12 ∣ a then year else year - 1) := by
  rw [Int.tmod_eq_emod]
  split
  case isTrue h  => exact (congrArg (wrapMonth · year) <| Int.sub_zero _).trans <| wrapMonth_of_nonneg (by omega)
  case isFalse h =>
    have hneg : a % 12 - ((12 : Int).natAbs : Int) < 0 := by omega
    rw [wrapMonth, if_pos hneg, wrapMonth_of_nonneg (by omega)]
    congr
    omega

def leapDay (month year : Int) : Nat :=
  if month = 1 ∧ LeapYear year then 1 else 0

theorem leapYear_iff : LeapYear year ↔ year % 4 = 0 ∧ ¬(year % 100 = 0 ∧ year % 400 ≠ 0) := by
  simp only [LeapYear]
  omega

theorem getMonthLength_eq {month : Int} : getMonthLength month year = days.getD month.toNat 0 + leapDay month year := by
  simp only [getMonthLength, leapDay, leapYear_iff]
  by_cases hm : month = 1
  case neg =>
    rw [if_neg fun h => hm h.left, if_neg fun h => hm h.left]
    exact (Int.add_zero _).symm
  case pos =>
    subst hm
    have hdays : days.getD (1 : Int).toNat 0 = 28 := rfl
    rw [hdays]
    split_ifs <;> first | rfl | grind

theorem daysOfMonth_eq {month : Int} (h : 0 ≤ month ∧ month < 12) :
    daysOfMonth month.toNat year = days.getD month.toNat 0 + leapDay month year := by
  obtain ⟨hl, hu⟩ := h
  rw [leapDay]
  interval_cases month
  case «1» =>
    have hdays : days.getD (1 : Int).toNat 0 = 28 := rfl
    have hcode : daysOfMonth (1 : Int).toNat year = if LeapYear year then 29 else 28 := rfl
    rw [hdays, hcode]
    split_ifs <;> first | rfl | grind
  all_goals rfl

-- The number of times that the year has been taken back before the step of this index.
def yearSteps (this_month n : Nat) : Nat :=
  (n - 1 - this_month) - (n - 1 - this_month) / 12

structure MonthCount.Balanced (month : Nat) (year : Int) (n : Nat) (count : MonthCount) : Prop where
  year_eq : count.year = year - yearSteps (month + 1) n
  tot_days_eq :
    count.tot_days + days.getD (((month : Int) + 1 - n) % 12).toNat 0 + leapDays month year n =
      calendarDays month year n + days.getD ((month + 1) % 12) 0 + shiftedLeapDays month year n

theorem calendarDays_succ : calendarDays month year (n + 1) = calendarDays month year n +
    (days.getD (((month : Int) - n) % 12).toNat 0 +
      leapDay (((month : Int) - n) % 12) (year + ((month : Int) - n) / 12)) := by
  rw [calendarDays, List.range_succ, List.map_append, List.sum_append, List.map_singleton, List.sum_singleton,
    daysOfMonth_eq (by omega), calendarDays]

theorem leapDays_succ : leapDays month year (n + 1) = leapDays month year n +
    leapDay (((month : Int) - n) % 12) (year + ((month : Int) - n) / 12) := by
  have hfebruary : ((n : Int) + 1 - month) % 12 = 0 ↔ ((month : Int) - n) % 12 = 1 := by omega
  have hquotient (h : ((month : Int) - n) % 12 = 1) :
      year + ((month : Int) - n) / 12 = year - ((n : Int) + 1 - month) / 12 := by
    omega
  simp only [leapDays, List.range_succ, List.countP_append, List.countP_singleton, leapDay, decide_eq_true_eq,
    hfebruary]
  grind

-- Of the twelve steps of a year, the one to the month of index zero leaves the year alone.
theorem shiftedLeapDays_succ (hm : month < 12) : shiftedLeapDays month year (n + 1) = shiftedLeapDays month year n +
    leapDay (((month : Int) + 1 - n) % 12) (year - yearSteps (month + 1) (n + 1)) := by
  have hfebruary : ((n : Int) - month) % 12 = 0 ↔ ((month : Int) + 1 - n) % 12 = 1 := by omega
  have hsteps (h : ((month : Int) + 1 - n) % 12 = 1) :
      (yearSteps (month + 1) (n + 1) : Int) = 11 * (((n : Int) - month) / 12) := by
    simp only [yearSteps]
    omega
  simp only [shiftedLeapDays, List.range_succ, List.countP_append, List.countP_singleton, leapDay,
    decide_eq_true_eq, hfebruary]
  grind

theorem balanced_add (hm : month < 12) {count : MonthCount} (h : count.Balanced month year n) :
    (count.add (month + 1) n).Balanced month year (n + 1) := by
  obtain ⟨hyear, htot⟩ := h
  have hdvd : (12 : Int) ∣ (month + 1 - n) ↔ ((month : Int) + 1 - n) % 12 = 0 := Int.dvd_iff_emod_eq_zero
  have hstep : (if 0 ≤ (month + 1 - n : Int) ∨ 12 ∣ (month + 1 - n : Int) then count.year else count.year - 1) =
      year - yearSteps (month + 1) (n + 1) := by
    simp only [hyear, hdvd, yearSteps]
    split_ifs <;> omega
  constructor
  case year_eq     =>
    rw [MonthCount.add, wrapMonth_tmod]
    exact hstep
  case tot_days_eq =>
    have hcode : (count.add (month + 1) n).tot_days = count.tot_days +
        (days.getD (((month : Int) + 1 - n) % 12).toNat 0 +
          leapDay (((month : Int) + 1 - n) % 12) (year - yearSteps (month + 1) (n + 1))) := by
      simp only [MonthCount.add, wrapMonth_tmod, hstep, getMonthLength_eq]
    have hnext : ((month : Int) + 1 - (n + 1 : Nat)) % 12 = (month - n) % 12 := by omega
    rw [hcode, calendarDays_succ, hnext, leapDays_succ, shiftedLeapDays_succ hm]
    omega

theorem balanced_foldl (hm : month < 12) :
    ((List.range n).foldl (MonthCount.add (month + 1)) { year, tot_days := 0 }).Balanced month year n := by
  induction n
  case zero      =>
    constructor
    case year_eq     =>
      have hsteps : yearSteps (month + 1) 0 = 0 := by
        rw [yearSteps]
        omega
      rw [hsteps]
      exact (Int.sub_zero year).symm
    case tot_days_eq =>
      have hfirst : (((month : Int) + 1 - (0 : Nat)) % 12).toNat = (month + 1) % 12 := by omega
      rw [hfirst]
      rfl
  case succ n ih =>
    rw [List.range_succ, List.foldl_append]
    exact balanced_add hm ih

theorem months2Seconds_eq {year : Nat} (hm : month < 12) (hy : year < 2 ^ 31) :
    months2Seconds (vmonth month) (vyear year) m =
      ((List.range m).foldl (MonthCount.add (month + 1)) { year, tot_days := 0 }).tot_days * 3600 * 24 := by
  have hyear : toInt year = year := by
    simp only [toInt]
    omega
  rw [months2Seconds, month2Int_vmonth hm, intFromString_vyear (by omega), hyear]
  split
  case isTrue h  =>
    obtain rfl : m = 0 := by omega
    rfl
  case isFalse h => rfl

theorem months2Seconds_eq_iff {year : Nat} (hm : month < 12) (hy : year < 2 ^ 31) :
    months2Seconds (vmonth month) (vyear year) m = 86400 * calendarDays month year m ↔ ShiftMakesUp month year m := by
  have hbalance := (@balanced_foldl month m year hm).tot_days_eq
  rw [months2Seconds_eq hm hy, ShiftMakesUp]
  omega

end

-- The seconds are those of the months up to the current one if and only if the next month makes up for the rest.
theorem months2Seconds_iff (month year m : Nat) (hm : month < 12) (hy : year < 2 ^ 31) :
    months2Seconds (vmonth month) (vyear year) m = 86400 * calendarDays month year m ↔ ShiftMakesUp month year m :=
  months2Seconds_eq_iff hm hy

-- July has as many days as the month after it.
theorem months2Seconds_july :
    months2Seconds (vmonth 6) (vyear 2013) (1 : Nat) = 86400 * calendarDays 6 (2013 : Nat) 1 :=
  (months2Seconds_iff 6 2013 1 (by decide) (by decide)).mpr <| by decide

-- In March, one month is given the thirty days of April.
theorem not_months2Seconds : ¬∀ month year m : Nat, month < 12 → year < 2 ^ 31 →
    months2Seconds (vmonth month) (vyear year) m = 86400 * calendarDays month year m := by
  intro h
  have hmarch := (months2Seconds_eq_iff (by decide) (by decide)).mp <| h 2 2013 1 (by decide) (by decide)
  exact absurd hmarch (by decide)

end CfEngine
