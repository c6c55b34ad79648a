import CfEngine.Libutils.Json.NumberParts
import CfEngine.Libutils.Scanf

namespace CfEngine

-- The text that `end` is left at in `StringToLong`.
def longEnd (str : CString) : CString :=
  match scanNumber str with
  | none          => str
  | some (_, end') => end'

namespace JsonElement

-- The outcome is `none` if an assertion fails: that the primitive is an integer, or the one in
-- `StringToLong` that it is read up to its end.
def jsonPrimitiveGetAsInteger : JsonElement → Option Int
  | primitive .integer value => if longEnd value = [] then some (stringToLong value) else none
  | _                        => none

-- The text up to the next separator, or to the end.
def numberText (data : List Char) : List Char :=
  data.takeWhile (!isSeparator ·)

-- Exactly the numbers of the grammar are read. The cursor is left on the last character of the text.
structure ReadsNumber (data : List Char) : Prop where
  accepts : (∃ e last, parseAsNumber data = .ok (e, last)) ↔ IsNumberText (numberText data)
  reads   : ∀ e last, parseAsNumber data = .ok (e, last) → ∃ type, e = primitive type (numberText data) ∧
    last.drop 1 = data.dropWhile (!isSeparator ·) ∧
    (type = .integer ↔ '.' ∉ numberText data ∧ 'e' ∉ numberText data ∧ 'E' ∉ numberText data) ∧
    (type = .integer → (jsonPrimitiveGetAsInteger e).isSome)

end JsonElement

theorem isDigit_of_isJsonDigit {c : Char} (h : isJsonDigit c = true) : c.isDigit = true := by
  rcases of_decide_eq_true h with rfl | hn
  · rfl
  · have ⟨hl, hu⟩ : '1' ≤ c ∧ c ≤ '9' := of_decide_eq_true hn
    have hl := Char.le_def.mp hl
    have hu := Char.le_def.mp hu
    simp only [Char.isDigit, Bool.and_eq_true, decide_eq_true_eq]
    have h01 : '0'.val ≤ '1'.val := by decide
    exact ⟨UInt32.le_trans h01 hl, hu⟩

theorem isspace_of_isJsonDigit {c : Char} (h : isJsonDigit c = true) : isspace c = false := by
  have hne {d} (hd : isJsonDigit d = false) : c ≠ d := isJsonDigit_ne h hd
  simp [isspace, hne (d := ' ') rfl, hne (d := '\t') rfl, hne (d := '\n') rfl, hne (d := '\x0b') rfl,
    hne (d := '\x0c') rfl, hne (d := '\r') rfl]

theorem scanNumber_fraction {digits : List Char} (hd : IsFraction digits) :
    digits.takeWhile Char.isDigit = digits ∧ digits.dropWhile Char.isDigit = [] :=
  have hall c hc := isDigit_of_isJsonDigit <| List.all_eq_true.mp hd.right c hc
  ⟨List.takeWhile_eq_self_iff.mpr hall, List.dropWhile_eq_nil_iff.mpr hall⟩

-- An integer is read up to its end.
theorem longEnd_eq_nil {whole : List Char} (h : NumberParts.IsScannedWhole whole) : longEnd whole = [] := by
  cases h with
  | negative hd =>
    obtain ⟨ht, hr⟩ := scanNumber_fraction hd
    rw [longEnd, scanNumber, show ('-' :: _).dropWhile isspace = '-' :: _ from rfl]
    simp only [ht, hr, hd.left, if_false]
  | plain hw =>
    have hall := hw.all_isJsonDigit
    cases whole with
    | nil => contradiction
    | cons d digits =>
      have hd := List.all_eq_true.mp hall d <| List.mem_cons_self ..
      obtain ⟨ht, hr⟩ := scanNumber_fraction ⟨List.cons_ne_nil d digits, hall⟩
      have hs : (d :: digits).dropWhile isspace = d :: digits :=
        List.dropWhile_cons_of_neg <| by simp [isspace_of_isJsonDigit hd]
      have hscan : scanNumber (d :: digits) = some ((decimal (d :: digits) : Int), []) := by
        unfold scanNumber
        rw [hs]
        extract_lets s
        split
        case h_1 he =>
          simp only [s] at he
          split at he
          case h_1 hc => exact absurd (List.cons.inj hc).left <| isJsonDigit_ne hd rfl
          case h_2 hc => exact absurd (List.cons.inj hc).left <| isJsonDigit_ne hd rfl
          case h_3 =>
            cases he
            simp [ht, hr]
      rw [longEnd, hscan]

namespace JsonElement

variable {data : List Char} {e : JsonElement} {last : List Char}

-- Exactly the numbers by their parts are accepted.
theorem exists_of_parseAsNumber (h : parseAsNumber data = .ok (e, last)) :
    ∃ parts : NumberParts, parts.Scanned ∧ parts.text = numberText data := by
  unfold parseAsNumber at h
  split at h
  case h_1    => cases h
  case h_2 hr =>
    split at h
    case isTrue     => cases h
    case isFalse ha => exact (NumberScan.passes_of_run hr).scanned (not_not.mp ha)

theorem parseAsNumber_of_scanned {parts : NumberParts} (hp : parts.Scanned)
    (ht : parts.text = numberText data) :
    ∃ last, last.drop 1 = data.dropWhile (!isSeparator ·) ∧ parseAsNumber data =
      .ok (primitive (if '.' ∈ numberText data then .real else .integer) (numberText data), last) := by
  have ⟨scan, hs, ha⟩ := NumberScan.passes_parts hp
  rw [ht] at hs
  have hhead : (data.dropWhile (!isSeparator ·)).head?.all isSeparator = true := by
    have := List.head?_dropWhile_not (!isSeparator ·) data
    cases hd : (data.dropWhile (!isSeparator ·)).head? <;> simp_all
  have ⟨last, hl, h⟩ := parseAsNumber_append hs ha hhead
  have hd : data = numberText data ++ data.dropWhile (!isSeparator ·) := List.takeWhile_append_dropWhile.symm
  rw [←hd, hs.seen_dot] at h
  exact ⟨last, hl, by simpa using h⟩

-- The grammar is met exactly if the text is no number that is misread.
theorem readsNumber_iff : ReadsNumber data ↔
    ¬∃ parts : NumberParts, parts.Scanned ∧ parts.text = numberText data ∧ parts.Misread := by
  constructor
  case mp =>
    intro ⟨ha, hr⟩ ⟨parts, hp, ht, hm⟩
    have ⟨last, _, h⟩ := parseAsNumber_of_scanned hp ht
    have hnumber := ht ▸ ha.mp ⟨_, _, h⟩
    have hn := fun hc => hp.not_isNumberText hc hnumber
    have ⟨hz, hn⟩ := not_or.mp hn
    have ⟨hl, hafter⟩ := not_or.mp hn
    have ⟨hf, hx⟩ := hm.resolve_left hz |>.resolve_left hl |>.resolve_left hafter
    have ⟨type, he, _, hi, _⟩ := hr _ _ h
    have hdot : '.' ∉ numberText data := by
      rw [←ht, hp.dot_mem_iff]
      exact fun hc => hc.elim (· hf) hafter
    rw [if_neg hdot] at he
    have ⟨_, hlow, hupp⟩ := hi.mp (JsonElement.primitive.inj he |>.left.symm)
    have hletter := hp.letter_mem_iff.mpr hx
    rw [ht] at hletter
    exact hletter.elim hlow hupp
  case mpr =>
    intro hm
    constructor
    case accepts =>
      constructor
      case mp =>
        intro ⟨e, last, h⟩
        have ⟨parts, hp, ht⟩ := exists_of_parseAsNumber h
        exact ht ▸ hp.isNumberText fun hc => hm ⟨parts, hp, ht, hc⟩
      case mpr =>
        intro h
        have ⟨parts, hp, ht, _⟩ := NumberParts.exists_of_isNumberText h
        have ⟨last, _, h⟩ := parseAsNumber_of_scanned hp ht
        exact ⟨_, last, h⟩
    case reads =>
      intro e last h
      have ⟨parts, hp, ht⟩ := exists_of_parseAsNumber h
      have ⟨last', hl, h'⟩ := parseAsNumber_of_scanned hp ht
      cases Except.ok.inj <| h.symm.trans h'
      have hletter := hp.letter_mem_iff
      have hdot := hp.dot_mem_iff
      rw [ht] at hletter hdot
      by_cases hd : '.' ∈ numberText data
      case pos =>
        rw [if_pos hd]
        exact ⟨.real, rfl, hl, iff_of_false nofun fun hc => hc.left hd, nofun⟩
      case neg =>
        have ⟨hf, ha⟩ := not_or.mp <| mt hdot.mpr hd
        have hf := not_not.mp hf
        have ha := not_not.mp ha
        have hx : parts.exponent = [] :=
          by_contra fun hx => hm ⟨parts, hp, ht, .inr <| .inr <| .inr ⟨hf, hx⟩⟩
        have hw : parts.whole = numberText data := by
          rw [←ht, NumberParts.text, hf, hx, ha]
          simp [NumberParts.behindDots]
        have hl' := not_or.mp <| mt hletter.mp <| not_not.mpr hx
        rw [if_neg hd]
        refine ⟨.integer, rfl, hl, iff_of_true rfl ⟨hd, hl'⟩, fun _ => ?_⟩
        simp [jsonPrimitiveGetAsInteger, longEnd_eq_nil (hw ▸ hp.whole)]

-- A number with an exponent is taken for an integer, and the numbers with two dots and with a zero too
-- many are accepted.
theorem not_readsNumber : ¬ReadsNumber "1e5".toList ∧ ¬ReadsNumber "1.2.3".toList ∧
    ¬ReadsNumber "-01".toList := by
  refine ⟨fun h => ?_, fun h => ?_, fun h => ?_⟩
  · have ⟨type, he, _, hi, _⟩ := h.reads (primitive .integer "1e5".toList) ['5'] rfl
    exact hi.mp (JsonElement.primitive.inj he |>.left.symm) |>.right.left (by decide)
  · have hp : NumberParts.Scanned ⟨['1'], [['2'], ['3']], [], []⟩ :=
      ⟨.plain <| .nonzero rfl rfl, by simp [IsFraction, isJsonDigit, isNonzeroDigit], .inl ⟨rfl, rfl⟩, by simp⟩
    exact hp.not_isNumberText (.inr <| .inl le_rfl) <| h.accepts.mp ⟨_, _, rfl⟩
  · have hp : NumberParts.Scanned ⟨['-', '0', '1'], [], [], []⟩ :=
      ⟨.negative ⟨by simp, rfl⟩, by simp, .inl ⟨rfl, rfl⟩, by simp⟩
    exact hp.not_isNumberText (.inl ⟨_, _, rfl⟩) <| h.accepts.mp ⟨_, _, rfl⟩

end JsonElement
end CfEngine
