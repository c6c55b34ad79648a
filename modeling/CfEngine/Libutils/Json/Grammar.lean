import CfEngine.Libutils.Json.Tokens
import CfEngine.Libutils.Json.Numbers

namespace CfEngine

def isBlank (text : List Char) : Bool :=
  text.all isWhitespace

def isHexDigit (c : Char) : Bool :=
  isJsonDigit c ∨ 'a' ≤ c ∧ c ≤ 'f' ∨ 'A' ≤ c ∧ c ≤ 'F'

-- The characters between the quotes of a JSON string.
inductive IsStringBody : List Char → Prop
  | nil : IsStringBody []
  | plain {c : Char} {s : List Char} (char : c ≠ '"' ∧ c ≠ '\\' ∧ ' ' ≤ c) (rest : IsStringBody s) :
      IsStringBody (c :: s)
  | escaped {c : Char} {s : List Char} (char : c ∈ ['"', '\\', '/', 'b', 'f', 'n', 'r', 't'])
      (rest : IsStringBody s) : IsStringBody ('\\' :: c :: s)
  | unicode {digits s : List Char} (hex : digits.length = 4 ∧ digits.all isHexDigit = true)
      (rest : IsStringBody s) : IsStringBody ('\\' :: 'u' :: (digits ++ s))

def IsStringText (text : List Char) : Prop :=
  ∃ s, IsStringBody s ∧ text = '"' :: (s ++ ['"'])

inductive IsExponent : List Char → Prop
  | plain {e : Char} {digits : List Char} (char : e = 'e' ∨ e = 'E') (digits_ok : IsFraction digits) :
      IsExponent (e :: digits)
  | signed {e sign : Char} {digits : List Char} (char : e = 'e' ∨ e = 'E') (sign_ok : sign = '+' ∨ sign = '-')
      (digits_ok : IsFraction digits) : IsExponent (e :: sign :: digits)

inductive IsNumberText : List Char → Prop
  | integer {whole : List Char} (signed : IsSigned whole) : IsNumberText whole
  | real {whole digits : List Char} (signed : IsSigned whole) (fraction : IsFraction digits) :
      IsNumberText (whole ++ '.' :: digits)
  | integerExponent {whole exponent : List Char} (signed : IsSigned whole) (exponent_ok : IsExponent exponent) :
      IsNumberText (whole ++ exponent)
  | realExponent {whole digits exponent : List Char} (signed : IsSigned whole) (fraction : IsFraction digits)
      (exponent_ok : IsExponent exponent) : IsNumberText (whole ++ '.' :: digits ++ exponent)

-- What a text of the grammar stands for.
inductive JsonPart
  | value (e : JsonElement)
  | elements (children : List JsonElement)
  | members (children : List (CString × JsonElement))

open JsonElement

-- The JSON grammar, with the elements that a text stands for. A string has the value that it is read with.
inductive IsJson : JsonPart → List Char → Prop
  | string {value : CString} {text : List Char} (spelled : IsStringText text)
      (read : parseAsString text = .ok (value, ['"'])) : IsJson (.value <| jsonStringCreate value) text
  | number {text : List Char} (spelled : IsNumberText text) :
      IsJson (.value <| primitive (if '.' ∈ text then .real else .integer) text) text
  | literal {e : JsonElement} {text : List Char} (spelled : IsLiteral text e) : IsJson (.value e) text
  | emptyArray {blank : List Char} (blank_ok : isBlank blank = true) :
      IsJson (.value <| array []) ('[' :: (blank ++ [']']))
  | array {children : List JsonElement} {text : List Char} (elements : IsJson (.elements children) text) :
      IsJson (.value <| array children) ('[' :: (text ++ [']']))
  | emptyObject {blank : List Char} (blank_ok : isBlank blank = true) :
      IsJson (.value <| object []) ('{' :: (blank ++ ['}']))
  | object {children : List (CString × JsonElement)} {text : List Char} (members : IsJson (.members children) text) :
      IsJson (.value <| object children) ('{' :: (text ++ ['}']))
  | element {e : JsonElement} {blank text blank' : List Char} (blank_ok : isBlank blank = true)
      (value : IsJson (.value e) text) (blank_ok' : isBlank blank' = true) :
      IsJson (.elements [e]) (blank ++ (text ++ blank'))
  | elements {e : JsonElement} {children : List JsonElement} {blank text blank' more : List Char}
      (blank_ok : isBlank blank = true) (value : IsJson (.value e) text) (blank_ok' : isBlank blank' = true)
      (next : IsJson (.elements children) more) :
      IsJson (.elements (e :: children)) (blank ++ (text ++ (blank' ++ ',' :: more)))
  | member {name : CString} {e : JsonElement} {blank key blank₁ blank₂ text blank' : List Char}
      (blank_ok : isBlank blank = true) (spelled : IsStringText key)
      (read : parseAsString key = .ok (name, ['"'])) (blank_ok₁ : isBlank blank₁ = true)
      (blank_ok₂ : isBlank blank₂ = true) (value : IsJson (.value e) text) (blank_ok' : isBlank blank' = true) :
      IsJson (.members [(name, e)]) (blank ++ (key ++ (blank₁ ++ ':' :: (blank₂ ++ (text ++ blank')))))
  | members {name : CString} {e : JsonElement} {children : List (CString × JsonElement)}
      {blank key blank₁ blank₂ text blank' more : List Char}
      (blank_ok : isBlank blank = true) (spelled : IsStringText key)
      (read : parseAsString key = .ok (name, ['"'])) (blank_ok₁ : isBlank blank₁ = true)
      (blank_ok₂ : isBlank blank₂ = true) (value : IsJson (.value e) text) (blank_ok' : isBlank blank' = true)
      (next : IsJson (.members children) more) :
      IsJson (.members ((name, e) :: children))
        (blank ++ (key ++ (blank₁ ++ ':' :: (blank₂ ++ (text ++ (blank' ++ ',' :: more))))))

namespace JsonToken

def opens : JsonToken → Bool
  | mark c => c = '[' ∨ c = '{'
  | _      => false

def startsValue : JsonToken → Bool
  | mark c => c = '[' ∨ c = '{'
  | _      => true

def endsValue : JsonToken → Bool
  | mark c => c = ']' ∨ c = '}'
  | _      => true

def isComma : JsonToken → Bool
  | mark c => c = ','
  | _      => false

def isColon : JsonToken → Bool
  | mark c => c = ':'
  | _      => false

-- Whether the second token may come right after the first one: no mark is missing between them, there is no comma
-- too much, and no second colon.
def mayPrecede (previous next : JsonToken) : Bool :=
  !(previous.endsValue && next.startsValue) && !(!previous.endsValue && next.isComma) &&
    !(previous.isComma && next.endsValue && !next.startsValue) && !(previous.isColon && next.isColon)

-- The characters of the token are what the grammar has for its element.
def Spelled : JsonToken → Prop
  | mark _        => True
  | string _ text => IsStringText text
  | symbol e text => IsLiteral text e ∨ IsNumberText text

theorem endsValue_of_mayPrecede {previous next : JsonToken} (h : previous.mayPrecede next = true)
    (hn : next.startsValue = true) : previous.endsValue = false := by
  cases he : previous.endsValue
  case false => rfl
  case true  => simp [mayPrecede, he, hn] at h

end JsonToken

-- The tokens may follow one another, and each of them is spelled as in the grammar.
def Regular : JsonToken → List JsonToken → Prop
  | _, []                     => True
  | previous, token :: tokens => previous.mayPrecede token = true ∧ token.Spelled ∧ Regular token tokens

theorem regular_append {previous token : JsonToken} {first tokens : List JsonToken} :
    Regular previous (first ++ token :: tokens) ↔ Regular previous (first ++ [token]) ∧ Regular token tokens := by
  induction first generalizing previous
  case nil         => simp only [List.nil_append, Regular, and_true, and_assoc]
  case cons _ _ ih => simp only [List.cons_append, Regular, ih, and_assoc]

namespace JsonElement.NumberScan

variable {scan scan' : NumberScan} {str value last data cursor : List Char} {c : Char}

theorem switch_seen_dot (h : scan.switch c = .ok scan') : scan'.seen_dot = (scan.seen_dot || decide (c = '.')) := by
  unfold switch at h
  grind

-- The loop takes the characters up to the first separator.
theorem run_eq (h : scan.run str last data = .ok (scan', value, cursor)) :
    ∃ text tail, data = text ++ tail ∧ text.all (!isSeparator ·) = true ∧ tail.head?.all isSeparator = true ∧
      value = str ++ text ∧ (text = [] → cursor = last) ∧ (text ≠ [] → cursor.drop 1 = tail) ∧
      scan'.seen_dot = (scan.seen_dot || text.contains '.') := by
  induction data generalizing scan str last
  case nil            =>
    cases h
    exact ⟨[], [], rfl, rfl, rfl, (List.append_nil _).symm, fun _ => rfl, absurd rfl, by simp⟩
  case cons c data ih =>
    unfold run at h
    split at h
    case isTrue hs  =>
      cases h
      exact ⟨[], c :: data, rfl, rfl, hs, (List.append_nil _).symm, fun _ => rfl, absurd rfl, by simp⟩
    case isFalse hs =>
      split at h
      case h_1          => cases h
      case h_2 scan₁ hc =>
        have ⟨text, tail, hd, ht, hsep, hv, he, hne, hdot⟩ := ih h
        refine ⟨c :: text, tail, congrArg _ hd, ?_, hsep, ?_, nofun, fun _ => ?_, ?_⟩
        · simp [hs, ht]
        · rw [hv, List.append_assoc]
          rfl
        · by_cases hn : text = []
          case pos => rw [he hn, hd, hn]; rfl
          case neg => exact hne hn
        · have hdot : scan'.seen_dot = (scan₁.seen_dot || text.contains '.') := hdot
          rw [hdot, switch_seen_dot hc, Bool.or_assoc, List.contains_cons]
          simp [Bool.beq_eq_decide_eq, eq_comm]

end JsonElement.NumberScan

theorem isBlank_nil : isBlank [] = true :=
  rfl

theorem isBlank_cons {c : Char} {text : List Char} (hc : isWhitespace c = true) (h : isBlank text = true) :
    isBlank (c :: text) = true := by
  rw [isBlank, List.all_cons, hc]
  exact h

namespace IsJson

variable {part : JsonPart} {text blank : List Char} {c : Char} {children : List JsonElement}
  {properties : List (CString × JsonElement)}

theorem blank_elements (hc : isWhitespace c = true) (h : IsJson (.elements children) text) :
    IsJson (.elements children) (c :: text) := by
  cases h
  case element hb hv hb'     => exact .element (isBlank_cons hc hb) hv hb'
  case elements hb hv hb' hn => exact .elements (isBlank_cons hc hb) hv hb' hn

theorem blank_members (hc : isWhitespace c = true) (h : IsJson (.members properties) text) :
    IsJson (.members properties) (c :: text) := by
  cases h
  case member hb hs hr h₁ h₂ hv hb'     => exact .member (isBlank_cons hc hb) hs hr h₁ h₂ hv hb'
  case members hb hs hr h₁ h₂ hv hb' hn => exact .members (isBlank_cons hc hb) hs hr h₁ h₂ hv hb' hn

end IsJson

-- What follows the last token of a list, up to the closing bracket.
inductive ListRest {α : Type} (part : List α → JsonPart) (previous : JsonToken) : List α → List Char → Prop
  | none {text : List Char} (before : previous.endsValue || previous.opens) (blank : isBlank text = true) :
      ListRest part previous [] text
  | first {items : List α} {text : List Char} (before : previous.endsValue = false)
      (items_ok : IsJson (part items) text) : ListRest part previous items text
  | more {items : List α} {blank text : List Char} (before : previous.endsValue = true)
      (blank_ok : isBlank blank = true) (items_ok : IsJson (part items) text) :
      ListRest part previous items (blank ++ ',' :: text)

-- What follows the name of a property, or the colon after it.
inductive PropertyRest (previous : JsonToken) (name : CString) :
    List (CString × JsonElement) → List Char → Prop
  | colon {e : JsonElement} {children : List (CString × JsonElement)} {ended : JsonToken}
      {blank₁ blank₂ text rest : List Char} (before : previous.isColon = false) (blank_ok₁ : isBlank blank₁ = true)
      (blank_ok₂ : isBlank blank₂ = true) (value : IsJson (.value e) text) (ended_ok : ended.endsValue = true)
      (rest_ok : ListRest .members ended children rest) :
      PropertyRest previous name ((name, e) :: children) (blank₁ ++ ':' :: (blank₂ ++ (text ++ rest)))
  | value {e : JsonElement} {children : List (CString × JsonElement)} {ended : JsonToken}
      {blank text rest : List Char} (before : previous.isColon = true) (blank_ok : isBlank blank = true)
      (value : IsJson (.value e) text) (ended_ok : ended.endsValue = true)
      (rest_ok : ListRest .members ended children rest) :
      PropertyRest previous name ((name, e) :: children) (blank ++ (text ++ rest))

namespace JsonFrame

-- The text completes the container, after the token that has been read in it.
def Completes (previous : JsonToken) (text : List Char) (e : JsonElement) : JsonFrame → Prop
  | array children              =>
    ∃ items, e = .array (children ++ items) ∧ ListRest .elements previous items text
  | object children none        =>
    ∃ items, e = .object (children ++ items) ∧ ListRest .members previous items text
  | object children (some name) =>
    ∃ items, e = .object (children ++ items) ∧ PropertyRest previous name items text

-- The tokens that may have been read last.
def Follows (previous : JsonToken) : JsonFrame → Prop
  | array _           => (previous.opens || previous.isComma || previous.endsValue) = true
  | object _ none     => (previous.opens || previous.isComma || previous.endsValue) = true
  | object _ (some _) => previous.isColon = true ∨ previous.endsValue = true ∧ previous.startsValue = true

end JsonFrame

theorem IsNumberText.head {text tail : List Char} (h : IsNumberText text) :
    (text ++ tail).head?.any (fun c => c = '-' ∨ c = '0' ∨ isNonzeroDigit c) = true := by
  cases h
  case integer hs             => exact hs.head
  case real hs _              => exact List.append_assoc .. ▸ hs.head
  case integerExponent hs _   => exact List.append_assoc .. ▸ hs.head
  case realExponent hs _ _    =>
    rw [List.append_assoc, List.append_assoc]
    exact hs.head

theorem IsSigned.no_separator {text : List Char} (h : IsSigned text) :
    text.all (!isSeparator ·) = true := by
  refine List.all_eq_true.mpr fun c hc => Bool.not_eq_true' _ ▸ ?_
  rcases h.chars hc with rfl | hd
  · rfl
  · exact isSeparator_of_isJsonDigit hd

theorem IsFraction.no_separator {digits : List Char} (h : IsFraction digits) :
    digits.all (!isSeparator ·) = true :=
  List.all_eq_true.mpr fun c hc => Bool.not_eq_true' _ ▸
    isSeparator_of_isJsonDigit (List.all_eq_true.mp h.right c hc)

theorem IsExponent.no_separator {exponent : List Char} (h : IsExponent exponent) :
    exponent.all (!isSeparator ·) = true := by
  cases h
  case plain hc hd     =>
    rcases hc with rfl | rfl <;> exact hd.no_separator
  case signed hc hs hd =>
    rcases hc with rfl | rfl <;> rcases hs with rfl | rfl <;> exact hd.no_separator

theorem IsNumberText.no_separator {text : List Char} (h : IsNumberText text) :
    text.all (!isSeparator ·) = true := by
  cases h
  case integer hs             => exact hs.no_separator
  case real hs hf             =>
    rw [List.all_append, hs.no_separator]
    exact hf.no_separator
  case integerExponent hs he  => rw [List.all_append, hs.no_separator, he.no_separator, Bool.and_true]
  case realExponent hs hf he  =>
    rw [List.all_append, List.all_append, hs.no_separator, he.no_separator, Bool.and_true]
    exact hf.no_separator

namespace JsonElement

variable {c : Char} {text data data' cursor : List Char} {e : JsonElement}

theorem isSeparator_of_head (hn : data.head?.any (fun c => c = '-' ∨ c = '0' ∨ isNonzeroDigit c) = true) :
    data.head?.all isSeparator = false := by
  rcases data with _ | ⟨c, data⟩
  · cases hn
  · have hc : c = '-' ∨ c = '0' ∨ isNonzeroDigit c = true := of_decide_eq_true hn
    rcases hc with rfl | rfl | hc
    · rfl
    · rfl
    · exact isSeparator_of_isJsonDigit <| isJsonDigit_of_isNonzeroDigit hc

theorem parseAsNumber_eq (hn : data.head?.any (fun c => c = '-' ∨ c = '0' ∨ isNonzeroDigit c) = true)
    (h : parseAsNumber data = .ok (e, cursor)) :
    ∃ text tail, data = text ++ tail ∧ text ≠ [] ∧ text.all (!isSeparator ·) = true ∧
      tail.head?.all isSeparator = true ∧ cursor.drop 1 = tail ∧
      e = primitive (if '.' ∈ text then .real else .integer) text := by
  unfold parseAsNumber at h
  split at h
  case h_1    => cases h
  case h_2 hr =>
    have ⟨text, tail, hd, ht, hs, hv, he, hc, hdot⟩ := NumberScan.run_eq hr
    split at h
    case isTrue     => cases h
    case isFalse ha =>
      cases h
      have hn : text ≠ [] := by
        rintro rfl
        exact Bool.false_ne_true <| (isSeparator_of_head hn).symm.trans <| hd ▸ hs
      refine ⟨text, tail, hd, hn, ht, hs, hc hn, ?_⟩
      rw [hdot, hv]
      simp

theorem parseStringLoop_local {prev : Char} {str value : CString}
    (h : parseStringLoop prev str data = .ok (value, cursor)) :
    ∃ text, data = text ++ '"' :: cursor.drop 1 ∧
      ∀ tail, parseStringLoop prev str (text ++ '"' :: tail) = .ok (value, '"' :: tail) := by
  induction data generalizing prev str
  case nil            => cases h
  case cons c data ih =>
    unfold parseStringLoop at h
    split at h
    case isTrue hq  =>
      cases h
      refine ⟨[], by rw [hq.left]; rfl, fun tail => ?_⟩
      rw [List.nil_append, parseStringLoop, if_pos ⟨rfl, hq.right⟩]
    case isFalse hq =>
      split at h
      case isTrue hs  =>
        have ⟨text, hd, ht⟩ := ih h
        refine ⟨c :: text, by rw [hd]; rfl, fun tail => ?_⟩
        have hhead : (text ++ '"' :: tail).head? = data.head? := by
          rw [hd]
          cases text <;> rfl
        rw [List.cons_append, parseStringLoop, if_neg hq, hhead, if_pos hs]
        exact ht tail
      case isFalse hs =>
        have ⟨text, hd, ht⟩ := ih h
        refine ⟨c :: text, by rw [hd]; rfl, fun tail => ?_⟩
        have hhead : (text ++ '"' :: tail).head? = data.head? := by
          rw [hd]
          cases text <;> rfl
        rw [List.cons_append, parseStringLoop, if_neg hq, hhead, if_neg hs]
        exact ht tail

-- What a string is read as depends on its characters only.
theorem parseAsString_local {value : CString} (h : parseAsString data = .ok (value, cursor)) :
    ∃ text, data = text ++ cursor.drop 1 ∧ ∀ tail, parseAsString (text ++ tail) = .ok (value, '"' :: tail) := by
  unfold parseAsString at h
  split at h
  case h_1 =>
    have ⟨text, hd, ht⟩ := parseStringLoop_local h
    refine ⟨'"' :: (text ++ ['"']), by rw [hd]; simp, fun tail => ?_⟩
    have ht := ht tail
    rw [List.cons_append, List.append_assoc]
    exact ht
  case h_2 => cases h

theorem parseAsString_text {value : CString} (ht : data = text ++ data')
    (h : parseAsString data = .ok (value, cursor)) (hc : cursor.drop 1 = data') :
    parseAsString text = .ok (value, ['"']) := by
  have ⟨text', hd, ht'⟩ := parseAsString_local h
  rw [ht, hc] at hd
  rw [List.append_cancel_right hd]
  exact List.append_nil text' ▸ ht' []

-- A symbol that is spelled as in the grammar is a value of it.
theorem isJson_of_parseSymbol (ht : c :: data = text ++ data')
    (h : parseSymbol (c :: data) = .ok (e, cursor)) (hc : cursor.drop 1 = data')
    (hs : (JsonToken.symbol e text).Spelled) : IsJson (.value e) text := by
  cases hs
  case inl hl => exact .literal hl
  case inr hn =>
    have hnum : parseAsNumber (c :: data) = .ok (e, cursor) := by
      rw [← h, parseSymbol, if_pos (ht ▸ hn.head)]
    have ⟨text', tail, hd, _, _, _, hcursor, he⟩ := parseAsNumber_eq (ht ▸ hn.head) hnum
    rw [ht, ← hc, hcursor] at hd
    rw [he, ← List.append_cancel_right hd]
    exact .number hn

end JsonElement

theorem ListRest.elements {e : JsonElement} {items : List JsonElement} {ended : JsonToken} {text rest : List Char}
    (hv : IsJson (.value e) text) (he : ended.endsValue = true) (h : ListRest .elements ended items rest) :
    IsJson (.elements (e :: items)) (text ++ rest) := by
  cases h
  case none _ hb     => exact IsJson.element isBlank_nil hv hb
  case first hf _    => exact absurd he (Bool.eq_false_iff.mp hf)
  case more _ hb hi  => exact IsJson.elements isBlank_nil hv hb hi

theorem PropertyRest.members {previous : JsonToken} {name : CString} {items : List (CString × JsonElement)}
    {key rest : List Char} (hs : IsStringText key) (hr : parseAsString key = .ok (name, ['"']))
    (hp : previous.isColon = false) (h : PropertyRest previous name items rest) :
    IsJson (.members items) (key ++ rest) := by
  cases h
  case value hc _ _ _ _          => exact absurd hc (Bool.eq_false_iff.mp hp)
  case colon h₁ h₂ hv he hi =>
    cases hi
    case none _ hb     => exact IsJson.member isBlank_nil hs hr h₁ h₂ hv hb
    case first hf _    => exact absurd he (Bool.eq_false_iff.mp hf)
    case more _ hb hi  => exact IsJson.members isBlank_nil hs hr h₁ h₂ hv hb hi

namespace JsonFrame

variable {previous ended : JsonToken} {frame frame' : JsonFrame} {text rest : List Char} {child e : JsonElement}

theorem completes_value (hf : frame.Follows previous) (hp : previous.endsValue = false)
    (ha : frame.append child = some frame') (hv : IsJson (.value child) text) (he : ended.endsValue = true)
    (h : frame'.Completes ended rest e) : frame.Completes previous (text ++ rest) e := by
  rcases frame with children | ⟨children, _ | name⟩
  · cases ha
    have ⟨items, hi, hr⟩ := h
    exact ⟨child :: items, by rw [hi, List.append_assoc]; rfl, .first hp <| hr.elements hv he⟩
  · cases ha
  · cases ha
    have ⟨items, hi, hr⟩ := h
    have hc : previous.isColon = true :=
      Or.resolve_right hf fun hq => Bool.false_ne_true <| hp.symm.trans hq.left
    exact ⟨(name, child) :: items, by rw [hi, List.append_assoc]; rfl,
      PropertyRest.value hc isBlank_nil hv he hr⟩

theorem completes_blank {c : Char} (hc : isWhitespace c = true) (h : frame.Completes previous text e) :
    frame.Completes previous (c :: text) e := by
  rcases frame with children | ⟨children, _ | name⟩
  · obtain ⟨items, rfl, hr⟩ := h
    refine ⟨items, rfl, ?_⟩
    cases hr
    case none hb ht    => exact .none hb <| isBlank_cons hc ht
    case first hb ht   => exact .first hb <| ht.blank_elements hc
    case more hb ht hi => exact ListRest.more hb (isBlank_cons hc ht) hi
  · obtain ⟨items, rfl, hr⟩ := h
    refine ⟨items, rfl, ?_⟩
    cases hr
    case none hb ht    => exact .none hb <| isBlank_cons hc ht
    case first hb ht   => exact .first hb <| ht.blank_members hc
    case more hb ht hi => exact ListRest.more hb (isBlank_cons hc ht) hi
  · obtain ⟨items, rfl, hr⟩ := h
    refine ⟨items, rfl, ?_⟩
    cases hr
    case colon hb h₁ h₂ hv he hi => exact PropertyRest.colon hb (isBlank_cons hc h₁) h₂ hv he hi
    case value hb ht hv he hi    => exact PropertyRest.value hb (isBlank_cons hc ht) hv he hi

theorem completes_pass {c : Char} (hp : frame.passes c = true) (hf : frame.Follows previous)
    (hm : previous.mayPrecede (.mark c) = true) (h : frame.Completes (.mark c) text e) :
    frame.Completes previous (c :: text) e := by
  rcases frame with children | ⟨children, _ | name⟩
  · have hc : c = ',' := of_decide_eq_true hp
    subst hc
    obtain ⟨items, rfl, hr⟩ := h
    refine ⟨items, rfl, ?_⟩
    have he : previous.endsValue = true := by
      simpa [JsonToken.mayPrecede, JsonToken.isComma, JsonToken.endsValue, JsonToken.startsValue,
        JsonToken.isColon] using hm
    cases hr
    case none hb _     => cases hb
    case first _ ht    => exact ListRest.more he isBlank_nil ht
    case more hb _ _   => cases hb
  · have hc : c = ',' := of_decide_eq_true hp
    subst hc
    obtain ⟨items, rfl, hr⟩ := h
    refine ⟨items, rfl, ?_⟩
    have he : previous.endsValue = true := by
      simpa [JsonToken.mayPrecede, JsonToken.isComma, JsonToken.endsValue, JsonToken.startsValue,
        JsonToken.isColon] using hm
    cases hr
    case none hb _     => cases hb
    case first _ ht    => exact ListRest.more he isBlank_nil ht
    case more hb _ _   => cases hb
  · have hc : c = ':' := of_decide_eq_true hp
    subst hc
    obtain ⟨items, rfl, hr⟩ := h
    refine ⟨items, rfl, ?_⟩
    have he : previous.isColon = false := by
      simpa [JsonToken.mayPrecede, JsonToken.isComma, JsonToken.endsValue, JsonToken.startsValue,
        JsonToken.isColon] using hm
    cases hr
    case colon hb _ _ _ _ _    => cases hb
    case value _ ht hv hv' hi  => exact PropertyRest.colon he isBlank_nil ht hv hv' hi

theorem completes_close {c : Char} (hc : frame.closing = some c) (hf : frame.Follows previous)
    (hm : previous.mayPrecede (.mark c) = true) : frame.Completes previous [] frame.element := by
  have hb (hf : (previous.opens || previous.isComma || previous.endsValue) = true)
      (hn : (JsonToken.mark c).startsValue = false ∧ (JsonToken.mark c).endsValue = true) :
      (previous.endsValue || previous.opens) = true := by
    cases ho : previous.opens
    case true  => exact Bool.or_true _
    case false =>
      cases he : previous.endsValue
      case true  => rfl
      case false => simp_all [JsonToken.mayPrecede]
  rcases frame with children | ⟨children, _ | _⟩
  · cases hc
    exact ⟨[], by rw [List.append_nil]; rfl, .none (hb hf ⟨rfl, rfl⟩) rfl⟩
  · cases hc
    exact ⟨[], by rw [List.append_nil]; rfl, .none (hb hf ⟨rfl, rfl⟩) rfl⟩
  · cases hc

theorem endsValue_bracket : (JsonToken.mark frame.bracket).endsValue = true := by
  cases frame <;> rfl

variable {c : Char} {inner : JsonFrame}

theorem startsValue_of_opened (h : opened c = some inner) : (JsonToken.mark c).startsValue = true := by
  rcases opened_eq h with ⟨rfl, _⟩ | ⟨rfl, _⟩ <;> rfl

theorem follows_of_opened (h : opened c = some inner) : inner.Follows (.mark c) := by
  rcases opened_eq h with ⟨rfl, rfl⟩ | ⟨rfl, rfl⟩ <;> rfl

-- The container that is completed after its opening bracket.
theorem isJson_of_completes (ho : opened c = some inner) (h : inner.Completes (.mark c) text e) :
    IsJson (.value e) (c :: (text ++ [inner.bracket])) := by
  rcases opened_eq ho with ⟨rfl, rfl⟩ | ⟨rfl, rfl⟩
  · obtain ⟨items, rfl, hr⟩ := h
    cases hr
    case none _ hb   => exact .emptyArray hb
    case first _ hi  => exact .array hi
    case more hb _ _ => cases hb
  · obtain ⟨items, rfl, hr⟩ := h
    cases hr
    case none _ hb   => exact .emptyObject hb
    case first _ hi  => exact .object hi
    case more hb _ _ => cases hb

end JsonFrame

namespace Reads

variable {previous : JsonToken} {frame : JsonFrame} {data rest : List Char} {tokens : List JsonToken} {e : JsonElement}

theorem append_bracket (h : Reads frame data tokens e rest) : ∃ init, tokens = init ++ [.mark frame.bracket] := by
  induction h
  case blank ih           => exact ih
  case close hc           => exact ⟨[], by rw [JsonFrame.bracket_of_closing hc]; rfl⟩
  case pass ih            =>
    have ⟨init, hi⟩ := ih
    exact ⟨_ :: init, by rw [hi]; rfl⟩
  case key ih             =>
    have ⟨init, hi⟩ := ih
    exact ⟨_ :: init, by rw [hi]; rfl⟩
  case string ha _ ih     =>
    have ⟨init, hi⟩ := ih
    exact ⟨_ :: init, by rw [hi, JsonFrame.bracket_of_append ha]; rfl⟩
  case symbol ha _ ih     =>
    have ⟨init, hi⟩ := ih
    exact ⟨_ :: init, by rw [hi, JsonFrame.bracket_of_append ha]; rfl⟩
  case nested ha _ _ ih   =>
    have ⟨init, hi⟩ := ih
    exact ⟨_ :: (_ ++ init), by rw [hi, JsonFrame.bracket_of_append ha, List.cons_append, List.append_assoc]⟩

theorem follows_of_endsValue {token : JsonToken} {frame : JsonFrame} (ht : token.endsValue = true)
    (hf : frame.passes ',' = true) : frame.Follows token := by
  have hr : (token.opens || token.isComma || token.endsValue) = true := by
    rw [ht, Bool.or_true]
  rcases frame with _ | ⟨_, _ | _⟩
  · exact hr
  · exact hr
  · cases hf

-- What is read as regular tokens is the rest of a container of the grammar.
theorem completes (h : Reads frame data tokens e rest) (hr : Regular previous tokens)
    (hf : frame.Follows previous) :
    ∃ text, data = text ++ frame.bracket :: rest ∧ frame.Completes previous text e := by
  induction h generalizing previous
  case blank hb _ ih                     =>
    have ⟨text, hd, hc⟩ := ih hr hf
    exact ⟨_ :: text, by rw [hd]; rfl, JsonFrame.completes_blank hb hc⟩
  case close frame _ _ hc                =>
    exact ⟨[], by rw [JsonFrame.bracket_of_closing hc]; rfl, JsonFrame.completes_close hc hf hr.left⟩
  case pass frame _ _ _ _ _ hp _ ih                =>
    have ⟨hm, _, hr⟩ := hr
    have ⟨text, hd, hc⟩ := ih hr <| by
      rcases frame with _ | ⟨_, _ | _⟩ <;> cases of_decide_eq_true hp
      · rfl
      · rfl
      · exact .inl rfl
    exact ⟨_ :: text, by rw [hd]; rfl, JsonFrame.completes_pass hp hf hm hc⟩
  case key ht hp hc _ ih                 =>
    have ⟨hm, hs, hr⟩ := hr
    have ⟨text, hd, hcompl⟩ := ih hr <| .inr ⟨rfl, rfl⟩
    obtain ⟨items, rfl, hi⟩ := hcompl
    refine ⟨_, by rw [ht, hd, List.append_assoc]; rfl, items, rfl, ?_⟩
    have hb := JsonToken.endsValue_of_mayPrecede hm rfl
    exact .first hb <| hi.members hs (parseAsString_text ht hp hc) rfl
  case string ht hp hc ha _ ih           =>
    have ⟨hm, hs, hr⟩ := hr
    have ⟨text, hd, hcompl⟩ := ih hr <| follows_of_endsValue rfl <| JsonFrame.passes_of_append ha
    have hb := JsonToken.endsValue_of_mayPrecede hm rfl
    have hv := IsJson.string hs <| parseAsString_text ht hp hc
    refine ⟨_ ++ text, ?_, JsonFrame.completes_value hf hb ha hv rfl hcompl⟩
    rw [ht, hd, JsonFrame.bracket_of_append ha, List.append_assoc]
  case symbol ht hb hm hp hc ha _ ih     =>
    have ⟨hm, hs, hr⟩ := hr
    have ⟨text, hd, hcompl⟩ := ih hr <| follows_of_endsValue rfl <| JsonFrame.passes_of_append ha
    have hb := JsonToken.endsValue_of_mayPrecede hm rfl
    have hv := isJson_of_parseSymbol ht hp hc hs
    refine ⟨_ ++ text, ?_, JsonFrame.completes_value hf hb ha hv rfl hcompl⟩
    rw [ht, hd, JsonFrame.bracket_of_append ha, List.append_assoc]
  case nested ho hi ha _ ih₁ ih₂   =>
    have ⟨hm, _, hr⟩ := hr
    have ⟨init, hinit⟩ := hi.append_bracket
    rw [hinit, List.append_assoc, List.singleton_append, regular_append, ← hinit] at hr
    have ⟨_, hd, hinner⟩ := ih₁ hr.left <| JsonFrame.follows_of_opened ho
    have ⟨text, hd', hcompl⟩ := ih₂ hr.right <|
      follows_of_endsValue JsonFrame.endsValue_bracket <| JsonFrame.passes_of_append ha
    have hb := JsonToken.endsValue_of_mayPrecede hm <| JsonFrame.startsValue_of_opened ho
    have hv := JsonFrame.isJson_of_completes ho hinner
    refine ⟨_ ++ text, ?_, JsonFrame.completes_value hf hb ha hv JsonFrame.endsValue_bracket hcompl⟩
    rw [hd, hd', JsonFrame.bracket_of_append ha]
    simp

end Reads
end CfEngine
