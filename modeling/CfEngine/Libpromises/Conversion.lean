import CfEngine.Libutils.Scanf

namespace CfEngine

def cfNoInt : Int := -678

def cfInfinity : Int := 999999999

-- The product in a `long` wraps round.
def wrapLong (n : Int) : Int :=
  (n + 2 ^ 63) % 2 ^ 64 - 2 ^ 63

def isSpaceText (remainder : CString) : Bool :=
  remainder.all isspace

-- A percentage is represented as a negative number.
def scaleInt (a : Int) : Char → Int
  | 'k' => wrapLong (1000 * a)
  | 'K' => wrapLong (1024 * a)
  | 'm' => wrapLong (1000 * 1000 * a)
  | 'M' => wrapLong (1024 * 1024 * a)
  | 'g' => wrapLong (1000 * 1000 * 1000 * a)
  | 'G' => wrapLong (1024 * 1024 * 1024 * a)
  | '%' => if a < 0 ∨ a > 100 then cfNoInt else -a
  | _   => a

section
-- The time at which the agent has been started.
variable (cfStartTime : Int)

def intFromString : Option CString → Int
  | none   => cfNoInt
  | some s =>
    if s = ['i', 'n', 'f'] then
      cfInfinity
    else if s = ['n', 'o', 'w'] then
      cfStartTime
    else
      let values := sscanf s [.long, .char, .word cfBufSize]
      let a := (assignedNumber values 0).getD cfNoInt
      let c := ((assignedText values 1).bind List.head?).getD 'X'
      let remainder := (assignedText values 2).getD []
      if a = cfNoInt ∨ !isSpaceText remainder then a else scaleInt a c

end

-- An optional sign and decimal digits, with their value.
inductive SignedDigits : CString → Int → Prop
  | plain {d : CString} (ne : d ≠ []) (h : ∀ c ∈ d, c.isDigit) : SignedDigits d (decimal d)
  | plus {d : CString} (ne : d ≠ []) (h : ∀ c ∈ d, c.isDigit) : SignedDigits ('+' :: d) (decimal d)
  | minus {d : CString} (ne : d ≠ []) (h : ∀ c ∈ d, c.isDigit) : SignedDigits ('-' :: d) (-decimal d)

def unitFactor : Char → Option Int
  | 'k' => some 1000
  | 'K' => some 1024
  | 'm' => some (10 ^ 6)
  | 'M' => some (2 ^ 20)
  | 'g' => some (10 ^ 9)
  | 'G' => some (2 ^ 30)
  | _   => none

def Blanks (s : CString) : Prop :=
  ∀ c ∈ s, isspace c

-- What a number means with the unit and the blanks after it.
inductive UnitDenotes (n : Int) : CString → Int → Prop
  | plain {blanks : CString} (h : Blanks blanks) : UnitDenotes n blanks n
  | scaled {u : Char} {factor : Int} {blanks : CString} (hu : unitFactor u = some factor) (h : Blanks blanks) :
    UnitDenotes n (u :: blanks) (factor * n)
  | percent {blanks : CString} (hn : 0 ≤ n ∧ n ≤ 100) (h : Blanks blanks) : UnitDenotes n ('%' :: blanks) (-n)

inductive IntDenotes : CString → Int → Prop
  | intro {digits rest : CString} {n v : Int} (hd : SignedDigits digits n) (hv : UnitDenotes n rest v) :
    IntDenotes (digits ++ rest) v

def Representable (v : Int) : Prop :=
  -2 ^ 63 ≤ v ∧ v < 2 ^ 63

-- The text is a number with a meaning that fits, or one of those texts which denote nothing and are not
-- taken for numbers either: a percentage out of range, or the number that stands for none without a unit.
def ReadsExactly (s : CString) : Prop :=
  ∀ n rest, scanNumber s = some (n, rest) →
    if n = cfNoInt then
      ¬((∀ c ∈ s.head?, ¬isspace c) ∧ ∃ u blanks, rest = u :: blanks ∧ (unitFactor u).isSome ∧ Blanks blanks)
    else
      ((∀ c ∈ s.head?, ¬isspace c) ∧ ∃ v, UnitDenotes n rest v ∧ Representable v) ∨
        ¬(0 ≤ n ∧ n ≤ 100) ∧ ∃ blanks, rest = '%' :: blanks ∧ Blanks blanks

section
variable {s t rest d blanks : CString} {c : Char} {n v : Int} {start : Int}

-- Without a sign, the digits begin with the first character.
theorem scanNumber_cons (hc : c.isDigit) :
    scanNumber (c :: s) = some ((decimal <| (c :: s).takeWhile Char.isDigit : Int), (c :: s).dropWhile Char.isDigit) := by
  have hne : (c :: s).takeWhile Char.isDigit ≠ [] := by
    rw [List.takeWhile_cons_of_pos hc]
    exact List.cons_ne_nil _ _
  simp only [scanNumber, List.dropWhile_cons, isspace_of_isDigit hc, Bool.false_eq_true, if_false]
  split
  case h_1 he =>
    cases he
    exact absurd hc (by decide)
  case h_2 he =>
    cases he
    exact absurd hc (by decide)
  case h_3    =>
    simp only [hne, if_false, Bool.false_eq_true, hc, if_true, List.dropWhile_cons]

theorem scanNumber_signed (h : SignedDigits t n) (hrest : ∀ c ∈ rest.head?, ¬c.isDigit) :
    scanNumber (t ++ rest) = some (n, rest) := by
  have hstop {d : CString} (hd : ∀ c ∈ d, c.isDigit) :
      (d ++ rest).takeWhile Char.isDigit = d ∧ (d ++ rest).dropWhile Char.isDigit = rest := by
    rw [List.takeWhile_append_of_pos hd, List.dropWhile_append_of_pos hd]
    cases rest
    case nil         => exact ⟨List.append_nil d, rfl⟩
    case cons c rest =>
      have hc := hrest c rfl
      rw [List.takeWhile_cons_of_neg hc, List.dropWhile_cons_of_neg hc]
      exact ⟨List.append_nil d, rfl⟩
  cases h
  case plain hne hd =>
    obtain ⟨htake, hdrop⟩ := hstop hd
    obtain ⟨c, d, rfl⟩ := List.exists_cons_of_ne_nil hne
    rw [List.cons_append] at htake hdrop ⊢
    rw [scanNumber_cons <| hd c List.mem_cons_self, htake, hdrop]
  case plus hne hd  =>
    obtain ⟨htake, hdrop⟩ := hstop hd
    rw [scanNumber, List.cons_append, List.dropWhile_cons_of_neg (by decide)]
    simp only [htake, hdrop, hne, if_false, Bool.false_eq_true]
  case minus hne hd =>
    obtain ⟨htake, hdrop⟩ := hstop hd
    rw [scanNumber, List.cons_append, List.dropWhile_cons_of_neg (by decide)]
    simp only [htake, hdrop, hne, if_false, if_true]

def signOf : CString → Bool × CString
  | '-' :: s => (true, s)
  | '+' :: s => (false, s)
  | s        => (false, s)

theorem scanNumber_eq (s : CString) :
    scanNumber s =
      let (negative, u) := signOf (s.dropWhile isspace)
      if u.takeWhile Char.isDigit = [] then
        none
      else
        some (if negative then -decimal (u.takeWhile Char.isDigit) else decimal (u.takeWhile Char.isDigit),
          u.dropWhile Char.isDigit) :=
  rfl

theorem scanNumber_eq_some (h : scanNumber s = some (n, rest)) :
    ∃ t, SignedDigits t n ∧ s.dropWhile isspace = t ++ rest ∧ ∀ c ∈ rest.head?, ¬c.isDigit := by
  have hdigits {d : CString} : ∀ c ∈ d.takeWhile Char.isDigit, c.isDigit := fun c hc => List.mem_takeWhile_imp hc
  have hrest {d : CString} : ∀ c ∈ (d.dropWhile Char.isDigit).head?, ¬c.isDigit := by
    intro c hc
    have hnot := List.head?_dropWhile_not Char.isDigit d
    rw [Option.mem_def.mp hc] at hnot
    exact Bool.eq_false_iff.mp hnot
  rw [scanNumber_eq, Option.ite_none_left_eq_some, Option.some.injEq, Prod.mk.injEq] at h
  generalize s.dropWhile isspace = u at h ⊢
  have hcases : (∃ v, u = '-' :: v ∧ signOf u = (true, v)) ∨ (∃ v, u = '+' :: v ∧ signOf u = (false, v)) ∨
      signOf u = (false, u) := by
    unfold signOf
    split
    case h_1 v => exact .inl ⟨v, rfl, rfl⟩
    case h_2 v => exact .inr <| .inl ⟨v, rfl, rfl⟩
    case h_3   => exact .inr <| .inr rfl
  obtain ⟨hne, hn, rfl⟩ := h
  rcases hcases with ⟨v, rfl, hsign⟩ | ⟨v, rfl, hsign⟩ | hsign
  all_goals
    rw [hsign] at hne hn ⊢
    subst hn
  · exact ⟨_, .minus hne hdigits, by simp, hrest⟩
  · exact ⟨_, .plus hne hdigits, by simp, hrest⟩
  · exact ⟨_, .plain hne hdigits, by simp, hrest⟩

theorem isSpaceText_iff : isSpaceText s ↔ Blanks s :=
  List.all_eq_true

theorem scan_word_blank (h : Blanks s) : (ScanDirective.word cfBufSize).scan s = none := by
  have hdrop : s.dropWhile isspace = [] := List.dropWhile_eq_nil_iff.mpr h
  rw [ScanDirective.scan, hdrop]
  rfl

-- A word begins with a character that is not a blank.
theorem scan_word (h : ¬Blanks s) :
    ∃ text rest, (ScanDirective.word cfBufSize).scan s = some (some <| .text text, rest) ∧ ¬isSpaceText text := by
  cases hs : s.dropWhile isspace
  case nil      => exact absurd (List.dropWhile_eq_nil_iff.mp hs) h
  case cons c t =>
    have hnot := List.head?_dropWhile_not isspace s
    rw [hs] at hnot
    have hc : isspace c = false := hnot
    let text : CString := c :: (t.takeWhile (!isspace ·)).take (cfBufSize - 1)
    have htext : ((c :: t).takeWhile (!isspace ·)).take cfBufSize = text := by
      rw [List.takeWhile_cons_of_pos (by rw [hc]; rfl)]
      rfl
    refine ⟨text, (c :: t).drop text.length, ?_, ?_⟩
    · rw [ScanDirective.scan, hs, htext, if_neg (List.cons_ne_nil _ _)]
    · rw [isSpaceText, List.all_cons, hc]
      rintro ⟨⟩

-- What is stored for a number with what stands behind it.
def scannedInt (n : Int) : CString → Int
  | []     => toLong n
  | c :: t => if toLong n = cfNoInt ∨ !isSpaceText t then toLong n else scaleInt (toLong n) c

section
variable (hinf : s ≠ ['i', 'n', 'f']) (hnow : s ≠ ['n', 'o', 'w'])
include hinf hnow

theorem intFromString_none (h : scanNumber s = none) : intFromString start (some s) = cfNoInt := by
  have hvalues : sscanf s [.long, .char, .word cfBufSize] = [] := by
    simp only [sscanf, ScanDirective.scan, h, Option.map_none]
  rw [intFromString, if_neg hinf, if_neg hnow, hvalues]
  rfl

theorem intFromString_some (h : scanNumber s = some (n, rest)) : intFromString start (some s) = scannedInt n rest := by
  have hlong : (ScanDirective.long).scan s = some (some <| .number <| toLong n, rest) := by
    rw [ScanDirective.scan, h]
    rfl
  rw [intFromString, if_neg hinf, if_neg hnow, sscanf, hlong]
  cases rest
  case nil =>
    have hend : sscanf [] [.char, .word cfBufSize] = [] := rfl
    simp only [hend, assignedNumber, assignedText, scannedInt, scaleInt, isSpaceText]
    simp
  case cons c t =>
    have hchar : sscanf (c :: t) [.char, .word cfBufSize] = .text [c] :: sscanf t [.word cfBufSize] := rfl
    simp only [hchar]
    by_cases hblank : Blanks t
    case pos =>
      have hrest : sscanf t [.word cfBufSize] = [] := by
        rw [sscanf, scan_word_blank hblank]
      have hnil : isSpaceText [] := rfl
      simp [hrest, assignedNumber, assignedText, scannedInt, isSpaceText_iff.mpr hblank, hnil]
    case neg =>
      obtain ⟨text, rest, hword, htext⟩ := scan_word hblank
      have hrest : sscanf t [.word cfBufSize] = [.text text] := by
        rw [sscanf, hword]
        rfl
      have ht : isSpaceText t = false := Bool.eq_false_iff.mpr fun h => hblank <| isSpaceText_iff.mp h
      simp [hrest, assignedNumber, assignedText, scannedInt, ht, htext]

end

theorem toLong_eq_cfNoInt_iff : toLong n = cfNoInt ↔ n = cfNoInt := by
  simp only [toLong, cfNoInt]
  omega

theorem toLong_of_representable (h : Representable n) : toLong n = n := by
  obtain ⟨hl, hu⟩ := h
  simp only [toLong]
  omega

theorem wrapLong_of_representable (h : Representable n) : wrapLong n = n := by
  obtain ⟨hl, hu⟩ := h
  simp only [wrapLong]
  omega

theorem not_isspace_of_unitFactor (h : unitFactor c ≠ none) : ¬isspace c := by
  unfold unitFactor at h
  split at h
  case h_7 => exact absurd rfl h
  all_goals decide

theorem scaleInt_factor {factor : Int} (h : unitFactor c = some factor) : scaleInt n c = wrapLong (factor * n) := by
  unfold unitFactor at h
  split at h
  case h_7 => cases h
  all_goals
    cases h
    rfl

theorem representable_of_scaled {factor : Int} (hu : unitFactor c = some factor) (h : Representable (factor * n)) :
    Representable n := by
  obtain ⟨hl, hg⟩ := h
  unfold unitFactor at hu
  split at hu
  case h_7 => cases hu
  all_goals
    cases hu
    constructor <;> omega

-- All the factors are multiples of eight, and the number that stands for none is not.
theorem scaleInt_ne_cfNoInt {factor : Int} (h : unitFactor c = some factor) : scaleInt n c ≠ cfNoInt := by
  rw [scaleInt_factor h]
  unfold unitFactor at h
  split at h
  case h_7 => cases h
  all_goals
    cases h
    simp only [wrapLong, cfNoInt]
    omega

theorem scaleInt_other (hu : unitFactor c = none) (hp : c ≠ '%') : scaleInt n c = n := by
  unfold unitFactor at hu
  unfold scaleInt
  split <;> first | rfl | exact absurd rfl hp | cases hu

theorem not_digit_of_unitDenotes (h : UnitDenotes n rest v) : ∀ c ∈ rest.head?, ¬c.isDigit := by
  intro c hc hd
  cases h
  case plain h      =>
    have hspace := h c <| List.mem_of_head? hc
    rw [isspace_of_isDigit hd] at hspace
    cases hspace
  case scaled hu h  =>
    cases hc
    unfold unitFactor at hu
    split at hu
    case h_7 => cases hu
    all_goals exact absurd hd <| by decide
  case percent hn h =>
    cases hc
    exact absurd hd <| by decide

theorem intDenotes_iff (h : scanNumber s = some (n, rest)) :
    IntDenotes s v ↔ (∀ c ∈ s.head?, ¬isspace c) ∧ UnitDenotes n rest v := by
  constructor
  case mp  =>
    rintro ⟨hd, hv⟩
    rw [scanNumber_signed hd <| not_digit_of_unitDenotes hv] at h
    cases h
    refine ⟨?_, hv⟩
    cases hd
    case plain hne hd =>
      obtain ⟨c, d, rfl⟩ := List.exists_cons_of_ne_nil hne
      rintro e ⟨⟩
      rw [isspace_of_isDigit <| hd c List.mem_cons_self]
      decide
    case plus         =>
      rintro e ⟨⟩
      decide
    case minus        =>
      rintro e ⟨⟩
      decide
  case mpr =>
    rintro ⟨hs, hv⟩
    obtain ⟨t, ht, he, _⟩ := scanNumber_eq_some h
    have hdrop : s.dropWhile isspace = s := by
      cases s
      case nil      => rfl
      case cons c s => exact List.dropWhile_cons_of_neg <| hs c rfl
    rw [hdrop] at he
    exact he ▸ .intro ht hv

theorem scanNumber_of_intDenotes (h : IntDenotes s v) : ∃ n rest, scanNumber s = some (n, rest) := by
  obtain ⟨hd, hv⟩ := h
  exact ⟨_, _, scanNumber_signed hd <| not_digit_of_unitDenotes hv⟩

theorem scannedInt_cons (hn : toLong n ≠ cfNoInt) (ht : isSpaceText t) : scannedInt n (c :: t) = scaleInt (toLong n) c := by
  rw [scannedInt, if_neg]
  rw [not_or, ht]
  exact ⟨hn, by decide⟩

theorem scannedInt_of_unitDenotes (h : UnitDenotes n rest v) (hv : Representable v) (hn : n ≠ cfNoInt) : scannedInt n rest = v := by
  have hlong : toLong n ≠ cfNoInt := fun he => hn <| toLong_eq_cfNoInt_iff.mp he
  cases h
  case plain h      =>
    cases rest
    case nil      => exact toLong_of_representable hv
    case cons c t =>
      have hc := h c List.mem_cons_self
      have ht : isSpaceText t := isSpaceText_iff.mpr fun d hd => h d <| List.mem_cons_of_mem c hd
      have hu : unitFactor c = none := not_not.mp fun hu => not_isspace_of_unitFactor hu hc
      have hp : c ≠ '%' := by
        rintro rfl
        exact absurd hc <| by decide
      rw [scannedInt_cons hlong ht, scaleInt_other hu hp, toLong_of_representable hv]
  case scaled c factor t hu h =>
    have ht : isSpaceText t := isSpaceText_iff.mpr h
    have hrep := representable_of_scaled hu hv
    rw [scannedInt_cons hlong ht, scaleInt_factor hu, toLong_of_representable hrep, wrapLong_of_representable hv]
  case percent t hrange h =>
    have ht : isSpaceText t := isSpaceText_iff.mpr h
    have hrep : Representable n := ⟨by omega, by omega⟩
    rw [scannedInt_cons hlong ht, toLong_of_representable hrep, scaleInt, if_neg (by omega)]

theorem scannedInt_cfNoInt : scannedInt cfNoInt rest = cfNoInt := by
  have hlong : toLong cfNoInt = cfNoInt := rfl
  cases rest
  case nil      => rfl
  case cons c t => rw [scannedInt, if_pos (.inl hlong), hlong]

theorem scannedInt_percent (hn : ¬(0 ≤ n ∧ n ≤ 100)) (h : Blanks blanks) : scannedInt n ('%' :: blanks) = cfNoInt := by
  by_cases hlong : toLong n = cfNoInt
  case pos => rw [scannedInt, if_pos (.inl hlong), hlong]
  case neg =>
    have hrange : toLong n < 0 ∨ toLong n > 100 := by
      simp only [toLong]
      omega
    rw [scannedInt_cons hlong <| isSpaceText_iff.mpr h, scaleInt, if_pos hrange]

-- Another number is taken for none only if it is a percentage out of range.
theorem percent_of_scannedInt (hn : n ≠ cfNoInt) (h : scannedInt n rest = cfNoInt) :
    ¬(0 ≤ n ∧ n ≤ 100) ∧ ∃ blanks, rest = '%' :: blanks ∧ Blanks blanks := by
  have hlong : toLong n ≠ cfNoInt := fun he => hn <| toLong_eq_cfNoInt_iff.mp he
  cases rest
  case nil      => exact absurd h hlong
  case cons c t =>
    by_cases ht : isSpaceText t
    case neg =>
      rw [scannedInt, if_pos <| .inr <| by simp [ht]] at h
      exact absurd h hlong
    case pos =>
      rw [scannedInt_cons hlong ht] at h
      cases hu : unitFactor c
      case some factor => exact absurd h <| scaleInt_ne_cfNoInt hu
      case none        =>
        by_cases hp : c = '%'
        case neg => exact absurd ((scaleInt_other hu hp).symm.trans h) hlong
        case pos =>
          subst hp
          refine ⟨fun hrange => ?_, t, rfl, isSpaceText_iff.mp ht⟩
          rw [toLong_of_representable ⟨by omega, by omega⟩, scaleInt, if_neg (by omega), cfNoInt] at h
          omega

theorem not_unitDenotes_percent (hn : ¬(0 ≤ n ∧ n ≤ 100)) : ¬UnitDenotes n ('%' :: blanks) v := by
  intro h
  cases h
  case plain h     => exact absurd (h '%' List.mem_cons_self) (by decide)
  case scaled hu _ => cases hu
  case percent hr _ => exact hn hr

-- The number that stands for none denotes itself, if anything.
theorem unitDenotes_cfNoInt :
    (∀ v, UnitDenotes cfNoInt rest v → Representable v → v = cfNoInt) ↔
      ¬∃ u blanks, rest = u :: blanks ∧ (unitFactor u).isSome ∧ Blanks blanks := by
  constructor
  case mp  =>
    rintro h ⟨u, blanks, rfl, hu, hb⟩
    obtain ⟨factor, hu⟩ := Option.isSome_iff_exists.mp hu
    have hfactor : Representable (factor * cfNoInt) ∧ factor * cfNoInt ≠ cfNoInt := by
      unfold unitFactor at hu
      split at hu
      case h_7 => cases hu
      all_goals
        cases hu
        exact ⟨⟨by decide, by decide⟩, by decide⟩
    exact hfactor.right <| h _ (.scaled hu hb) hfactor.left
  case mpr =>
    intro h v hv hrep
    clear hrep
    cases hv
    case plain          => rfl
    case scaled hu hb   => exact absurd ⟨_, _, rfl, Option.isSome_of_eq_some hu, hb⟩ h
    case percent hr _   => exact absurd hr <| by decide

end

-- The result is the value, or it says that there is none, if and only if the text is read exactly.
theorem intFromString_exact_iff (start : Int) (s : CString) (hinf : s ≠ ['i', 'n', 'f']) (hnow : s ≠ ['n', 'o', 'w']) :
    (∀ v, IntDenotes s v → Representable v → intFromString start (some s) = v) ∧
        ((¬∃ v, IntDenotes s v ∧ Representable v) → intFromString start (some s) = cfNoInt) ↔
      ReadsExactly s := by
  rw [ReadsExactly]
  cases hscan : scanNumber s
  case none   =>
    rw [intFromString_none hinf hnow hscan]
    refine iff_of_true ⟨fun v hv => ?_, fun _ => rfl⟩ fun n rest h => ?_
    · obtain ⟨n, rest, h⟩ := scanNumber_of_intDenotes hv
      rw [hscan] at h
      cases h
    · cases h
  case some r =>
    obtain ⟨n, rest⟩ := r
    rw [intFromString_some hinf hnow hscan]
    have hdenotes v := @intDenotes_iff s rest n v hscan
    constructor
    case mp  =>
      rintro ⟨hexact, hrefuses⟩ m t ⟨⟩
      split
      case isTrue hn  =>
        subst hn
        rintro ⟨hs, hunit⟩
        refine unitDenotes_cfNoInt.mp (fun v hv hrep => ?_) hunit
        rw [←hexact v ((hdenotes v).mpr ⟨hs, hv⟩) hrep, scannedInt_cfNoInt]
      case isFalse hn =>
        by_cases hv : ∃ v, IntDenotes s v ∧ Representable v
        case pos =>
          obtain ⟨v, hv, hrep⟩ := hv
          obtain ⟨hs, hunit⟩ := (hdenotes v).mp hv
          exact .inl ⟨hs, v, hunit, hrep⟩
        case neg => exact .inr <| percent_of_scannedInt hn <| hrefuses hv
    case mpr =>
      intro hreads
      have h := hreads n rest rfl
      split at h
      case isTrue hn  =>
        subst hn
        refine ⟨fun v hv hrep => ?_, fun _ => scannedInt_cfNoInt⟩
        obtain ⟨hs, hunit⟩ := (hdenotes v).mp hv
        rw [scannedInt_cfNoInt]
        exact (unitDenotes_cfNoInt.mpr (fun hu => h ⟨hs, hu⟩) v hunit hrep).symm
      case isFalse hn =>
        rcases h with ⟨hs, v, hunit, hrep⟩ | ⟨hrange, blanks, rfl, hblank⟩
        · refine ⟨fun w hw hwrep => scannedInt_of_unitDenotes ((hdenotes w).mp hw).right hwrep hn, fun hnone => ?_⟩
          exact (hnone ⟨v, (hdenotes v).mpr ⟨hs, hunit⟩, hrep⟩).elim
        · refine ⟨fun v hv _ => ?_, fun _ => scannedInt_percent hrange hblank⟩
          exact absurd ((hdenotes v).mp hv).right <| not_unitDenotes_percent hrange

theorem intFromString_exact_kilobytes :
    (∀ v, IntDenotes ['6', '4', 'k'] v → Representable v → intFromString 0 (some ['6', '4', 'k']) = v) ∧
      ((¬∃ v, IntDenotes ['6', '4', 'k'] v ∧ Representable v) → intFromString 0 (some ['6', '4', 'k']) = cfNoInt) := by
  refine (intFromString_exact_iff 0 ['6', '4', 'k'] (by decide) (by decide)).mpr fun n rest hscan => ?_
  have hscan' : scanNumber ['6', '4', 'k'] = some (64, ['k']) := by decide
  cases hscan'.symm.trans hscan
  rw [if_neg (by decide)]
  exact .inl ⟨fun c hc => Option.some.inj hc ▸ by decide, _, .scaled rfl nofun, by decide, by decide⟩

-- A unit that there is not is left out.
theorem not_intFromString_exact : ¬∀ (start : Int) (s : CString), s ≠ ['i', 'n', 'f'] → s ≠ ['n', 'o', 'w'] →
    (∀ v, IntDenotes s v → Representable v → intFromString start (some s) = v) ∧
      ((¬∃ v, IntDenotes s v ∧ Representable v) → intFromString start (some s) = cfNoInt) := by
  intro h
  have hscan : scanNumber ['1', 'z'] = some (1, ['z']) := by decide
  have hresult := (h 0 ['1', 'z'] (by decide) (by decide)).right
  rw [intFromString_some (by decide) (by decide) hscan] at hresult
  refine absurd (hresult ?_) (by decide)
  rintro ⟨v, hv, hrep⟩
  have hunit := ((intDenotes_iff hscan).mp hv).right
  clear hv hrep
  cases hunit
  case plain hb      => exact absurd (hb 'z' List.mem_cons_self) (by decide)
  case scaled hu hb => cases hu

end CfEngine
