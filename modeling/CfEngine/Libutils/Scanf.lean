import CfEngine.Libutils.Strings

namespace CfEngine

-- The directives of the formats that are passed to `sscanf`. A width limits the number of characters.
inductive ScanDirective
  | literal (c : Char)
  | blanks
  | char
  | int
  | unsigned
  | long
  | word (width : Nat)
  | line (width : Nat)

inductive ScanValue
  | text (s : CString)
  | number (n : Int)
  deriving DecidableEq

def decimal (digits : CString) : Nat :=
  Nat.ofDigitChars 10 digits 0

-- A number with an optional sign, and the text after it.
def scanNumber (s : CString) : Option (Int × CString) :=
  let s := s.dropWhile isspace
  let (negative, s) :=
    match s with
    | '-' :: s => (true, s)
    | '+' :: s => (false, s)
    | s        => (false, s)
  let digits := s.takeWhile Char.isDigit
  if digits = [] then
    none
  else
    some (if negative then -decimal digits else decimal digits, s.dropWhile Char.isDigit)

-- The value of a `long` that is stored as an `int`. A number that is too large is replaced by the
-- largest one.
def toInt (n : Int) : Int :=
  let n := max (-2 ^ 63) (min n (2 ^ 63 - 1))
  (n + 2 ^ 31) % 2 ^ 32 - 2 ^ 31

def toLong (n : Int) : Int :=
  max (-2 ^ 63) (min n (2 ^ 63 - 1))

-- The text is a number, or the function gives that of its longest prefix that is one.
def stringToLong (str : CString) : Int :=
  match scanNumber str with
  | none        => 0
  | some (n, _) => toLong n

def toUnsigned (n : Int) : Int :=
  (max (-2 ^ 64) (min n (2 ^ 64 - 1))) % 2 ^ 32

namespace ScanDirective

-- The value that the directive assigns, if any, and the text after it.
def scan (s : CString) : ScanDirective → Option (Option ScanValue × CString)
  | literal c  =>
    match s with
    | []      => none
    | c' :: s => if c = c' then some (none, s) else none
  | blanks     => some (none, s.dropWhile isspace)
  | char       =>
    match s with
    | []     => none
    | c :: s => some (some <| .text [c], s)
  | int        => (scanNumber s).map fun (n, s) => (some <| .number <| toInt n, s)
  | unsigned   => (scanNumber s).map fun (n, s) => (some <| .number <| toUnsigned n, s)
  | long       => (scanNumber s).map fun (n, s) => (some <| .number <| toLong n, s)
  | word width =>
    let s := s.dropWhile isspace
    let text := (s.takeWhile (!isspace ·)).take width
    if text = [] then none else some (some <| .text text, s.drop text.length)
  | line width =>
    let text := (s.takeWhile (· ≠ '\n')).take width
    if text = [] then none else some (some <| .text text, s.drop text.length)

end ScanDirective

theorem scanNumber_length {s s' : CString} {n : Int} (h : scanNumber s = some (n, s')) :
    s'.length ≤ s.length := by
  have hd {p : Char → Bool} (s : CString) : (s.dropWhile p).length ≤ s.length :=
    (List.dropWhile_suffix p).length_le
  simp only [scanNumber, Option.ite_none_left_eq_some, Option.some.injEq, Prod.mk.injEq] at h
  obtain ⟨_, _, hs⟩ := h
  rw [← hs]
  refine Nat.le_trans (hd _) <| Nat.le_trans ?_ <| @hd isspace s
  generalize s.dropWhile isspace = text
  split <;> simp

-- What is scanned is a part of the text, and so is what is left of it.
theorem ScanDirective.scan_length {d : ScanDirective} {s s' : CString} {v : Option ScanValue}
    (h : d.scan s = some (v, s')) :
    s'.length ≤ s.length ∧ ∀ text, v = some (.text text) → text.length ≤ s.length := by
  have hd {p : Char → Bool} (s : CString) : (s.dropWhile p).length ≤ s.length :=
    (List.dropWhile_suffix p).length_le
  have ht {p : Char → Bool} (s : CString) : (s.takeWhile p).length ≤ s.length :=
    (List.takeWhile_prefix p).length_le
  have hn {store : Int → Int}
      (h : (scanNumber s).map (fun (n, s) => (some <| .number <| store n, s)) = some (v, s')) :
      s'.length ≤ s.length ∧ ∀ text, v = some (.text text) → text.length ≤ s.length := by
    have ⟨(n, s''), hs, hv⟩ := Option.map_eq_some_iff.mp h
    cases hv
    exact ⟨scanNumber_length hs, nofun⟩
  cases d
  case literal c  => cases s <;> grind [scan]
  case blanks     => grind [scan]
  case char       => cases s <;> grind [scan]
  case int        => exact hn h
  case unsigned   => exact hn h
  case long       => exact hn h
  case word width => grind [scan]
  case line width => grind [scan]

-- The largest number of characters that the directive assigns.
def ScanDirective.width : ScanDirective → Nat
  | char       => 1
  | word width => width
  | line width => width
  | _          => 0

theorem ScanDirective.scan_length_width {d : ScanDirective} {s s' text : CString}
    (h : d.scan s = some (some (.text text), s')) : text.length ≤ d.width := by
  cases d
  case literal c  => cases s <;> grind [scan]
  case blanks     => grind [scan]
  case char       => cases s <;> grind [scan, width]
  case int        => simp [scan] at h
  case unsigned   => simp [scan] at h
  case long       => simp [scan] at h
  case word width => grind [scan, ScanDirective.width]
  case line width => grind [scan, ScanDirective.width]

-- The values that are assigned before the first directive that fails.
def sscanf (s : CString) : List ScanDirective → List ScanValue
  | []           => []
  | d :: format =>
    match d.scan s with
    | none               => []
    | some (none, s)     => sscanf s format
    | some (some v, s)   => v :: sscanf s format

def scanLiteral (keyword : CString) : List ScanDirective :=
  keyword.map .literal

-- The value with the given index, if it has been assigned.
def assignedText (values : List ScanValue) (i : Nat) : Option CString :=
  match values[i]? with
  | some (.text s) => some s
  | _              => none

def assignedNumber (values : List ScanValue) (i : Nat) : Option Int :=
  match values[i]? with
  | some (.number n) => some n
  | _                => none

theorem text_mem_sscanf_length {format : List ScanDirective} {s text : CString}
    (h : .text text ∈ sscanf s format) : text.length ≤ s.length := by
  induction format generalizing s
  case nil            => cases h
  case cons d format ih =>
    unfold sscanf at h
    split at h
    case h_1 => cases h
    case h_2 s' hs => exact Nat.le_trans (ih h) (d.scan_length hs).left
    case h_3 v s' hs =>
      have ⟨hl, hv⟩ := d.scan_length hs
      cases List.mem_cons.mp h
      case inl h => exact hv text <| congrArg some h.symm
      case inr h => exact Nat.le_trans (ih h) hl

theorem text_mem_sscanf_width {format : List ScanDirective} {s text : CString} {width : Nat}
    (hw : ∀ d ∈ format, d.width ≤ width) (h : .text text ∈ sscanf s format) : text.length ≤ width := by
  induction format generalizing s
  case nil            => cases h
  case cons d format ih =>
    have ih {s} := ih (s := s) fun d hd => hw d <| List.mem_cons_of_mem _ hd
    unfold sscanf at h
    split at h
    case h_1 => cases h
    case h_2 => exact ih h
    case h_3 v s' hs =>
      cases List.mem_cons.mp h
      case inl h =>
        rw [← h] at hs
        exact Nat.le_trans (d.scan_length_width hs) <| hw d List.mem_cons_self
      case inr h => exact ih h

theorem ScanDirective.scan_number {d : ScanDirective} {s s' : CString} {n : Int}
    (h : d.scan s = some (some (.number n), s')) : -2 ^ 63 ≤ n ∧ n < 2 ^ 64 := by
  have hn {store : Int → Int} (hs : ∀ n, -2 ^ 63 ≤ store n ∧ store n < 2 ^ 64)
      (h : (scanNumber s).map (fun (n, s) => (some <| ScanValue.number <| store n, s)) =
        some (some (.number n), s')) : -2 ^ 63 ≤ n ∧ n < 2 ^ 64 := by
    have ⟨(m, _), _, hv⟩ := Option.map_eq_some_iff.mp h
    cases hv
    exact hs m
  cases d
  case literal c  => cases s <;> grind [scan]
  case blanks     => simp [scan] at h
  case char       => cases s <;> simp [scan] at h
  case int        => exact hn (fun n => by simp only [toInt]; omega) h
  case unsigned   => exact hn (fun n => by simp only [toUnsigned]; omega) h
  case long       => exact hn (fun n => by simp only [toLong]; omega) h
  case word width => grind [scan]
  case line width => grind [scan]

theorem number_mem_sscanf {format : List ScanDirective} {s : CString} {n : Int}
    (h : .number n ∈ sscanf s format) : -2 ^ 63 ≤ n ∧ n < 2 ^ 64 := by
  induction format generalizing s
  case nil            => cases h
  case cons d format ih =>
    unfold sscanf at h
    split at h
    case h_1         => cases h
    case h_2         => exact ih h
    case h_3 v s' hs =>
      cases List.mem_cons.mp h
      case inl h => exact ScanDirective.scan_number <| h ▸ hs
      case inr h => exact ih h

theorem assignedNumber_bounds {format : List ScanDirective} {s : CString} {i : Nat} :
    -2 ^ 63 ≤ (assignedNumber (sscanf s format) i).getD 0 ∧
      (assignedNumber (sscanf s format) i).getD 0 < 2 ^ 64 := by
  unfold assignedNumber
  split
  case h_1 n hi => exact number_mem_sscanf <| List.mem_of_getElem? hi
  case h_2      => decide

theorem assignedText_width {format : List ScanDirective} {s : CString} {i : Nat} (width : Nat)
    (hw : ∀ d ∈ format, d.width ≤ width) :
    ((assignedText (sscanf s format) i).getD []).length ≤ width := by
  unfold assignedText
  split
  case h_1 text hi => exact text_mem_sscanf_width hw <| List.mem_of_getElem? hi
  case h_2         => exact Nat.zero_le _

theorem assignedText_length {format : List ScanDirective} {s text : CString} {i : Nat}
    (h : assignedText (sscanf s format) i = some text) : text.length ≤ s.length := by
  unfold assignedText at h
  split at h
  case h_1 text' hi =>
    cases Option.some.inj h
    exact text_mem_sscanf_length <| List.mem_of_getElem? hi
  case h_2 => cases h

end CfEngine
