import CfEngine.Libutils.Json.Parsing

namespace CfEngine

namespace JsonElement

variable {c prev : Char} {data cursor rest : List Char} {value str : CString} {e : JsonElement}

theorem isSuffix_parseStringLoop (h : parseStringLoop prev str data = .ok (value, cursor)) :
    cursor <:+ data ∧ cursor ≠ [] := by
  induction data generalizing prev str
  case nil            => cases h
  case cons c data ih =>
    unfold parseStringLoop at h
    split at h
    case isTrue  =>
      cases h
      exact ⟨List.suffix_rfl, List.cons_ne_nil _ _⟩
    case isFalse =>
      have h : cursor <:+ data ∧ cursor ≠ [] := by
        split at h
        case isTrue  => exact ih h
        case isFalse => exact ih h
      exact ⟨h.left.trans <| List.suffix_cons .., h.right⟩

theorem isSuffix_parseAsString (h : parseAsString data = .ok (value, cursor)) :
    cursor <:+ data ∧ cursor ≠ [] := by
  unfold parseAsString at h
  split at h
  case h_1 =>
    have ⟨hs, hn⟩ := isSuffix_parseStringLoop h
    exact ⟨hs.trans <| List.suffix_cons .., hn⟩
  case h_2 => cases h

theorem NumberScan.isSuffix_run {scan scan' : NumberScan} {last : List Char}
    (hl : data <:+ last) (hn : last ≠ []) (h : scan.run str last data = .ok (scan', value, cursor)) :
    cursor <:+ last ∧ cursor ≠ [] := by
  induction data generalizing scan str last
  case nil            =>
    cases h
    exact ⟨List.suffix_rfl, hn⟩
  case cons c data ih =>
    unfold run at h
    split at h
    case isTrue  =>
      cases h
      exact ⟨List.suffix_rfl, hn⟩
    case isFalse =>
      split at h
      case h_1 => cases h
      case h_2 =>
        have ⟨hs, hn⟩ := ih (List.suffix_cons ..) (List.cons_ne_nil _ _) h
        exact ⟨hs.trans hl, hn⟩

theorem isSuffix_parseAsNumber (hd : data ≠ []) (h : parseAsNumber data = .ok (e, cursor)) :
    cursor <:+ data ∧ cursor ≠ [] := by
  unfold parseAsNumber at h
  split at h
  case h_1         => cases h
  case h_2 hr =>
    split at h
    case isTrue  => cases h
    case isFalse =>
      cases h
      exact NumberScan.isSuffix_run List.suffix_rfl hd hr

end JsonElement

theorem length_of_matchesAfterNewline {word : CString} {data : List Char}
    (h : matchesAfterNewline word data = true) : word.length < data.length := by
  induction data
  case nil            => cases h
  case cons c data ih =>
    rw [matchesAfterNewline, Bool.or_eq_true, decide_eq_true_eq] at h
    cases h
    case inl h => exact Nat.lt_succ_of_le <| (List.isPrefixOf_iff_prefix.mp h.right).length_le
    case inr h => exact Nat.lt_succ_of_lt <| ih h

theorem length_of_stringMatchLine {word : CString} {data : List Char}
    (h : stringMatchLine word data = true) : word.length ≤ data.length := by
  simp only [stringMatchLine, Bool.or_eq_true, decide_eq_true_eq] at h
  rcases h with (h | h) | h
  · exact h ▸ Nat.le_succ _
  · exact (List.isPrefixOf_iff_prefix.mp h).length_le
  · exact Nat.le_of_lt <| length_of_matchesAfterNewline h

-- The elements whose text is a literal.
inductive IsLiteral : CString → JsonElement → Prop
  | true  : IsLiteral jsonTrue (.jsonBoolCreate true)
  | false : IsLiteral jsonFalse (.jsonBoolCreate false)
  | null  : IsLiteral jsonNull .jsonNullCreate

theorem IsLiteral.ne_nil {literal : CString} {e : JsonElement} (h : IsLiteral literal e) :
    literal ≠ [] := by
  cases h <;> decide

namespace JsonElement

variable {c : Char} {data cursor rest : List Char} {value : CString} {e : JsonElement}

theorem isLiteral_of_parse (h : (parseAsBoolean data <|> parseAsNull data) = some (e, cursor)) :
    ∃ literal, IsLiteral literal e ∧ stringMatchLine literal data = true ∧
      parseLiteral literal data = some cursor := by
  cases hb : parseAsBoolean data
  case some parsed =>
    rw [hb] at h
    cases h
    unfold parseAsBoolean at hb
    split at hb
    case isTrue hm =>
      have ⟨_, hl, he⟩ := Option.map_eq_some_iff.mp hb
      cases he
      exact ⟨_, .true, hm, hl⟩
    case isFalse =>
      have ⟨hm, hb⟩ := Option.ite_none_right_eq_some.mp hb
      have ⟨_, hl, he⟩ := Option.map_eq_some_iff.mp hb
      cases he
      exact ⟨_, .false, hm, hl⟩
  case none        =>
    rw [hb] at h
    have ⟨hm, h⟩ := Option.ite_none_right_eq_some.mp h
    have ⟨_, hl, he⟩ := Option.map_eq_some_iff.mp h
    cases he
    exact ⟨_, .null, hm, hl⟩

theorem isSuffix_parseLiteral {literal : CString} (hm : stringMatchLine literal data = true)
    (hn : literal ≠ []) (h : parseLiteral literal data = some cursor) :
    cursor <:+ data ∧ cursor ≠ [] := by
  have ⟨_, h⟩ := Option.ite_none_right_eq_some.mp h
  cases h
  refine ⟨List.drop_suffix .., fun hd => ?_⟩
  have hlen := length_of_stringMatchLine hm
  have hpos := List.length_pos_iff.mpr hn
  rw [List.drop_eq_nil_iff] at hd
  omega

theorem isSuffix_parseSymbol (hd : data ≠ []) (h : parseSymbol data = .ok (e, cursor)) :
    cursor <:+ data ∧ cursor ≠ [] := by
  unfold parseSymbol at h
  split at h
  case isTrue  => exact isSuffix_parseAsNumber hd h
  case isFalse =>
    split at h
    case h_1 hp =>
      cases h
      have ⟨_, hl, hm, hp⟩ := isLiteral_of_parse hp
      exact isSuffix_parseLiteral hm hl.ne_nil hp
    case h_2    => cases h

end JsonElement

open JsonElement

-- What the loops pass between two looks at the text. A string and a symbol come with the characters that they
-- are made of.
inductive JsonToken
  | mark (c : Char)
  | string (value : CString) (text : List Char)
  | symbol (element : JsonElement) (text : List Char)

-- The characters that numbers and literals start with.
def startsSymbol (c : Char) : Bool :=
  !isWhitespace c && c ∉ ['"', '[', '{', ',', ']', ':', '}']

theorem startsSymbol_of_isNonzeroDigit {c : Char} (h : isNonzeroDigit c = true) : startsSymbol c = true := by
  have hne {d} (hd : isNonzeroDigit d = false) : c ≠ d :=
    fun he => Bool.false_ne_true <| hd.symm.trans <| he ▸ h
  have hm : c ∉ ['"', '[', '{', ',', ']', ':', '}', ' ', '\t', '\n', '\r'] := by
    intro hm
    have hd : ∀ d ∈ ['"', '[', '{', ',', ']', ':', '}', ' ', '\t', '\n', '\r'], isNonzeroDigit d = false := by
      simp [isNonzeroDigit]
    exact hne (hd c hm) rfl
  simp only [List.mem_cons, List.not_mem_nil, or_false, not_or] at hm
  simp [startsSymbol, isWhitespace, hm]

theorem startsSymbol_of_number {c : Char} {data : List Char}
    (h : (c :: data).head?.any (fun c => c = '-' ∨ c = '0' ∨ isNonzeroDigit c) = true) :
    startsSymbol c = true := by
  have hc : c = '-' ∨ c = '0' ∨ isNonzeroDigit c = true := of_decide_eq_true h
  rcases hc with rfl | rfl | hc
  · decide
  · decide
  · exact startsSymbol_of_isNonzeroDigit hc

-- The container that a loop is in, and what it has of it.
inductive JsonFrame
  | array (children : List JsonElement)
  | object (children : List (CString × JsonElement)) (property_name : Option CString)

namespace JsonFrame

def element : JsonFrame → JsonElement
  | array children    => .array children
  | object children _ => .object children

def append (child : JsonElement) : JsonFrame → Option JsonFrame
  | array children                   => some <| array (children ++ [child])
  | object children (some property) => some <| object (children ++ [(property, child)]) none
  | object _ none                    => none

-- The frame that a bracket opens.
def opened (c : Char) : Option JsonFrame :=
  if c = '[' then some <| array []
  else if c = '{' then some <| object [] none
  else none

def closing : JsonFrame → Option Char
  | array _           => some ']'
  | object _ none     => some '}'
  | object _ (some _) => none

-- The marks that the loops skip.
def passes (c : Char) : JsonFrame → Bool
  | array _           => c = ','
  | object _ none     => c = ','
  | object _ (some _) => c = ':'

-- The characters that the loops do not take for the start of a symbol.
def isMark (c : Char) : JsonFrame → Bool
  | array _    => c ∈ ['"', '[', '{', ',', ']']
  | object _ _ => c ∈ ['"', ':', ',', '[', '{', '}']

def parse (fuel : Nat) (data : List Char) : JsonFrame → JsonParseResult JsonElement
  | array children           => parseArrayLoop fuel children data
  | object children property => parseObjectLoop fuel children property data

end JsonFrame

-- A loop reads the text from its start to the end of its container, as tokens, and makes the element of them.
inductive Reads : JsonFrame → List Char → List JsonToken → JsonElement → List Char → Prop
  | blank {frame : JsonFrame} {c : Char} {data rest : List Char} {tokens : List JsonToken} {e : JsonElement}
      (blank : isWhitespace c = true) (next : Reads frame data tokens e rest) :
      Reads frame (c :: data) tokens e rest
  | close {frame : JsonFrame} {c : Char} {rest : List Char} (closing : frame.closing = some c) :
      Reads frame (c :: rest) [.mark c] frame.element rest
  | pass {frame : JsonFrame} {c : Char} {data rest : List Char} {tokens : List JsonToken} {e : JsonElement}
      (passes : frame.passes c = true) (next : Reads frame data tokens e rest) :
      Reads frame (c :: data) (.mark c :: tokens) e rest
  | key {children : List (CString × JsonElement)} {value text data data' rest cursor : List Char}
      {tokens : List JsonToken} {e : JsonElement} (text_eq : '"' :: data = text ++ data')
      (parse : parseAsString ('"' :: data) = .ok (value, cursor)) (cursor_eq : cursor.drop 1 = data')
      (next : Reads (.object children (some value)) data' tokens e rest) :
      Reads (.object children none) ('"' :: data) (.string value text :: tokens) e rest
  | string {frame frame' : JsonFrame} {value text data data' rest cursor : List Char}
      {tokens : List JsonToken} {e : JsonElement} (text_eq : '"' :: data = text ++ data')
      (parse : parseAsString ('"' :: data) = .ok (value, cursor)) (cursor_eq : cursor.drop 1 = data')
      (append : frame.append (jsonStringCreate value) = some frame')
      (next : Reads frame' data' tokens e rest) :
      Reads frame ('"' :: data) (.string value text :: tokens) e rest
  | symbol {frame frame' : JsonFrame} {c : Char} {text data data' rest cursor : List Char}
      {tokens : List JsonToken} {child e : JsonElement} (text_eq : c :: data = text ++ data')
      (no_blank : isWhitespace c = false) (no_mark : frame.isMark c = false)
      (parse : parseSymbol (c :: data) = .ok (child, cursor)) (cursor_eq : cursor.drop 1 = data')
      (append : frame.append child = some frame') (next : Reads frame' data' tokens e rest) :
      Reads frame (c :: data) (.symbol child text :: tokens) e rest
  | nested {frame frame' inner : JsonFrame} {c : Char} {data data' rest : List Char}
      {inside tokens : List JsonToken} {child e : JsonElement} (opened : JsonFrame.opened c = some inner)
      (reads : Reads inner data inside child data') (append : frame.append child = some frame')
      (next : Reads frame' data' tokens e rest) :
      Reads frame (c :: data) (.mark c :: (inside ++ tokens)) e rest

-- A round of a loop that comes to its end.
inductive JsonFrame.Looks (fuel : Nat) : JsonFrame → List Char → JsonElement → List Char → Prop
  | blank {frame : JsonFrame} {c : Char} {data last : List Char} {e : JsonElement}
      (blank : isWhitespace c = true) (next : frame.parse fuel data = .ok (e, last)) :
      Looks fuel frame (c :: data) e last
  | close {frame : JsonFrame} {c : Char} {data : List Char} (closing : frame.closing = some c) :
      Looks fuel frame (c :: data) frame.element (c :: data)
  | pass {frame : JsonFrame} {c : Char} {data last : List Char} {e : JsonElement}
      (passes : frame.passes c = true) (next : frame.parse fuel data = .ok (e, last)) :
      Looks fuel frame (c :: data) e last
  | key {children : List (CString × JsonElement)} {value data cursor last : List Char} {e : JsonElement}
      (parse : parseAsString ('"' :: data) = .ok (value, cursor))
      (next : (object children (some value)).parse fuel (cursor.drop 1) = .ok (e, last)) :
      Looks fuel (object children none) ('"' :: data) e last
  | string {frame frame' : JsonFrame} {value data cursor last : List Char} {e : JsonElement}
      (parse : parseAsString ('"' :: data) = .ok (value, cursor))
      (append : frame.append (jsonStringCreate value) = some frame')
      (next : frame'.parse fuel (cursor.drop 1) = .ok (e, last)) :
      Looks fuel frame ('"' :: data) e last
  | symbol {frame frame' : JsonFrame} {c : Char} {data cursor last : List Char} {child e : JsonElement}
      (no_blank : isWhitespace c = false) (no_mark : frame.isMark c = false)
      (parse : parseSymbol (c :: data) = .ok (child, cursor)) (append : frame.append child = some frame')
      (next : frame'.parse fuel (cursor.drop 1) = .ok (e, last)) :
      Looks fuel frame (c :: data) e last
  | nested {frame frame' inner : JsonFrame} {c : Char} {data cursor last : List Char} {child e : JsonElement}
      (opened : opened c = some inner) (parse : inner.parse fuel data = .ok (child, cursor))
      (append : frame.append child = some frame')
      (next : frame'.parse fuel (cursor.drop 1) = .ok (e, last)) :
      Looks fuel frame (c :: data) e last

namespace JsonFrame

variable {fuel : Nat} {c : Char} {data last : List Char} {frame : JsonFrame} {e : JsonElement}
  {parsed : JsonParseResult JsonElement} {value : CString}

theorem looks_array {children : List JsonElement}
    (h : parseArrayLoop (fuel + 1) children (c :: data) = .ok (e, last)) :
    (array children).Looks fuel (c :: data) e last := by
  rw [parseArrayLoop] at h
  by_cases hw : isWhitespace c = true
  · rw [if_pos hw] at h
    exact .blank hw h
  rw [if_neg hw] at h
  by_cases hq : c = '"'
  · rw [if_pos hq] at h
    subst hq
    cases hp : parseAsString ('"' :: data)
    case error => simp [hp, Except.map] at h
    case ok    =>
      rw [hp] at h
      exact .string hp rfl h
  rw [if_neg hq] at h
  by_cases ha : c = '['
  · rw [if_pos ha] at h
    subst ha
    cases hp : parseArrayLoop fuel [] data
    case error => simp [parseAsArray, hp] at h
    case ok    =>
      simp only [parseAsArray, hp] at h
      exact .nested rfl hp rfl h
  rw [if_neg ha] at h
  by_cases ho : c = '{'
  · rw [if_pos ho] at h
    subst ho
    cases hp : parseObjectLoop fuel [] none data
    case error => simp [parseAsObject, hp] at h
    case ok    =>
      simp only [parseAsObject, hp] at h
      exact .nested rfl hp rfl h
  rw [if_neg ho] at h
  by_cases hc : c = ','
  · rw [if_pos hc] at h
    exact .pass (decide_eq_true hc) h
  rw [if_neg hc] at h
  by_cases he : c = ']'
  · rw [if_pos he] at h
    cases h
    exact .close <| he ▸ rfl
  rw [if_neg he] at h
  cases hp : parseSymbol (c :: data)
  case error => simp [hp] at h
  case ok    =>
    rw [hp] at h
    refine .symbol (Bool.eq_false_iff.mpr hw) ?_ hp rfl h
    simp [isMark, hq, ha, ho, hc, he]

theorem looks_object_key {children : List (CString × JsonElement)}
    (h : parseObjectLoop (fuel + 1) children none (c :: data) = .ok (e, last)) :
    (object children none).Looks fuel (c :: data) e last := by
  rw [parseObjectLoop] at h
  by_cases hw : isWhitespace c = true
  · rw [if_pos hw] at h
    exact .blank hw h
  rw [if_neg hw] at h
  by_cases hq : c = '"'
  · rw [if_pos hq] at h
    subst hq
    cases hp : parseAsString ('"' :: data)
    case error => simp [hp] at h
    case ok    =>
      simp only [hp] at h
      exact .key hp h
  rw [if_neg hq] at h
  by_cases hk : c = ':'
  · rw [if_pos hk] at h
    cases h
  rw [if_neg hk] at h
  by_cases hc : c = ','
  · rw [if_pos hc] at h
    exact .pass (decide_eq_true hc) h
  rw [if_neg hc] at h
  by_cases ha : c = '['
  · rw [if_pos ha] at h
    cases h
  rw [if_neg ha] at h
  by_cases ho : c = '{'
  · rw [if_pos ho] at h
    cases h
  rw [if_neg ho] at h
  by_cases he : c = '}'
  · rw [if_pos he] at h
    cases h
    exact .close <| he ▸ rfl
  rw [if_neg he] at h
  cases h

theorem looks_object_value {children : List (CString × JsonElement)} {name : CString}
    (h : parseObjectLoop (fuel + 1) children (some name) (c :: data) = .ok (e, last)) :
    (object children (some name)).Looks fuel (c :: data) e last := by
  rw [parseObjectLoop] at h
  by_cases hw : isWhitespace c = true
  · rw [if_pos hw] at h
    exact .blank hw h
  rw [if_neg hw] at h
  by_cases hq : c = '"'
  · rw [if_pos hq] at h
    subst hq
    cases hp : parseAsString ('"' :: data)
    case error => simp [hp, Except.map] at h
    case ok    =>
      rw [hp] at h
      exact .string hp rfl h
  rw [if_neg hq] at h
  by_cases hk : c = ':'
  · rw [if_pos hk] at h
    exact .pass (decide_eq_true hk) h
  rw [if_neg hk] at h
  by_cases hc : c = ','
  · rw [if_pos hc] at h
    cases h
  rw [if_neg hc] at h
  by_cases ha : c = '['
  · rw [if_pos ha] at h
    subst ha
    cases hp : parseArrayLoop fuel [] data
    case error => simp [parseAsArray, hp] at h
    case ok    =>
      simp only [parseAsArray, hp] at h
      exact .nested rfl hp rfl h
  rw [if_neg ha] at h
  by_cases ho : c = '{'
  · rw [if_pos ho] at h
    subst ho
    cases hp : parseObjectLoop fuel [] none data
    case error => simp [parseAsObject, hp] at h
    case ok    =>
      simp only [parseAsObject, hp] at h
      exact .nested rfl hp rfl h
  rw [if_neg ho] at h
  by_cases he : c = '}'
  · rw [if_pos he] at h
    cases h
  rw [if_neg he] at h
  cases hp : parseSymbol (c :: data)
  case error => simp [hp] at h
  case ok    =>
    simp only [hp] at h
    refine .symbol (Bool.eq_false_iff.mpr hw) ?_ hp rfl h
    simp [isMark, hq, hk, ha, ho, hc, he]

theorem looks_of_parse (h : frame.parse (fuel + 1) data = .ok (e, last)) :
    frame.Looks fuel data e last := by
  cases data
  case nil  => cases frame <;> cases h
  case cons =>
    rcases frame with _ | ⟨_, _ | _⟩
    · exact looks_array h
    · exact looks_object_key h
    · exact looks_object_value h

theorem opened_eq {inner : JsonFrame} (h : opened c = some inner) :
    (c = '[' ∧ inner = array []) ∨ (c = '{' ∧ inner = object [] none) := by
  unfold opened at h
  split at h
  case isTrue hc => exact .inl ⟨hc, (Option.some.inj h).symm⟩
  case isFalse   =>
    have ⟨hc, h⟩ := Option.ite_none_right_eq_some.mp h
    exact .inr ⟨hc, (Option.some.inj h).symm⟩

theorem parse_of_looks (h : frame.Looks fuel data e last) :
    frame.parse (fuel + 1) data = .ok (e, last) := by
  cases h
  case blank hb hn =>
    rcases frame with _ | ⟨_, _ | _⟩
    · exact (if_pos hb).trans hn
    · exact (if_pos hb).trans hn
    · exact (if_pos hb).trans hn
  case close hc =>
    rcases frame with _ | ⟨_, _ | _⟩
    · cases hc
      rfl
    · cases hc
      rfl
    · cases hc
  case pass hp hn =>
    rcases frame with _ | ⟨_, _ | _⟩
    · cases of_decide_eq_true hp
      exact hn
    · cases of_decide_eq_true hp
      exact hn
    · cases of_decide_eq_true hp
      exact hn
  case key hp hn =>
    simp only [parse, parseObjectLoop, hp]
    exact hn
  case string hp ha hn =>
    rcases frame with _ | ⟨_, _ | _⟩
    · cases ha
      simp only [parse, parseArrayLoop, hp]
      exact hn
    · cases ha
    · cases ha
      simp only [parse, parseObjectLoop, hp]
      exact hn
  case symbol hb hp hm ha hn =>
    rcases frame with _ | ⟨_, _ | _⟩
    · cases ha
      simp only [isMark, List.mem_cons, List.not_mem_nil, or_false, decide_eq_false_iff_not,
        not_or] at hm
      rw [parse, parseArrayLoop, if_neg (Bool.eq_false_iff.mp hb), if_neg hm.1, if_neg hm.2.1,
        if_neg hm.2.2.1, if_neg hm.2.2.2.1, if_neg hm.2.2.2.2, hp]
      exact hn
    · cases ha
    · cases ha
      simp only [isMark, List.mem_cons, List.not_mem_nil, or_false, decide_eq_false_iff_not,
        not_or] at hm
      rw [parse, parseObjectLoop, if_neg (Bool.eq_false_iff.mp hb), if_neg hm.1, if_neg hm.2.1,
        if_neg hm.2.2.1, if_neg hm.2.2.2.1, if_neg hm.2.2.2.2.1, if_neg hm.2.2.2.2.2]
      simp only [hp]
      exact hn
  case nested ho hp ha hn =>
    rcases opened_eq ho with ⟨rfl, rfl⟩ | ⟨rfl, rfl⟩
    · have hp : parseArrayLoop fuel [] _ = _ := hp
      rcases frame with _ | ⟨_, _ | _⟩
      · cases ha
        simp only [parse, parseArrayLoop, parseAsArray, hp]
        exact hn
      · cases ha
      · cases ha
        simp only [parse, parseObjectLoop, parseAsArray, hp]
        exact hn
    · have hp : parseObjectLoop fuel [] none _ = _ := hp
      rcases frame with _ | ⟨_, _ | _⟩
      · cases ha
        simp only [parse, parseArrayLoop, parseAsObject, hp]
        exact hn
      · cases ha
      · cases ha
        simp only [parse, parseObjectLoop, parseAsObject, hp]
        exact hn

end JsonFrame

namespace JsonFrame

theorem of_startsSymbol {c : Char} (frame : JsonFrame) (h : startsSymbol c = true) :
    isWhitespace c = false ∧ frame.isMark c = false := by
  rw [startsSymbol, Bool.and_eq_true, Bool.not_eq_true', decide_eq_true_eq] at h
  have hm := h.right
  simp only [List.mem_cons, List.not_mem_nil, or_false, not_or] at hm
  refine ⟨h.left, ?_⟩
  cases frame <;> simp [isMark, hm]

-- The bracket that closes a container.
def bracket : JsonFrame → Char
  | array _    => ']'
  | object _ _ => '}'

variable {c : Char} {child : JsonElement} {frame frame' : JsonFrame}

theorem bracket_of_append (h : frame.append child = some frame') : frame'.bracket = frame.bracket := by
  rcases frame with _ | ⟨_, _ | _⟩
  · cases h
    rfl
  · cases h
  · cases h
    rfl

theorem passes_of_append (h : frame.append child = some frame') : frame'.passes ',' = true := by
  rcases frame with _ | ⟨_, _ | _⟩
  · cases h
    rfl
  · cases h
  · cases h
    rfl

theorem bracket_of_closing (h : frame.closing = some c) : frame.bracket = c := by
  rcases frame with _ | ⟨_, _ | _⟩
  · exact Option.some.inj h
  · exact Option.some.inj h
  · cases h

end JsonFrame

namespace Reads

variable {fuel : Nat} {data rest cursor last : List Char} {frame : JsonFrame} {tokens : List JsonToken}
  {e : JsonElement}

theorem text_eq (h : cursor <:+ data ∧ cursor ≠ []) : ∃ text, data = text ++ cursor.drop 1 := by
  have ⟨⟨text, ht⟩, hn⟩ := h
  rcases cursor with _ | ⟨c, cursor⟩
  · exact absurd rfl hn
  · exact ⟨text ++ [c], by rw [← ht]; simp⟩

-- What a loop accepts, it has read.
theorem of_parse (h : frame.parse fuel data = .ok (e, last)) :
    ∃ tokens c rest, last = c :: rest ∧ Reads frame data tokens e rest := by
  induction fuel generalizing frame data e last
  case zero         => cases frame <;> cases h
  case succ fuel ih =>
    cases JsonFrame.looks_of_parse h
    case blank hb hn =>
      have ⟨_, _, _, hl, hr⟩ := ih hn
      exact ⟨_, _, _, hl, .blank hb hr⟩
    case close hc =>
      exact ⟨_, _, _, rfl, .close hc⟩
    case pass hp hn =>
      have ⟨_, _, _, hl, hr⟩ := ih hn
      exact ⟨_, _, _, hl, .pass hp hr⟩
    case key hp hn =>
      have ⟨_, _, _, hl, hr⟩ := ih hn
      have ⟨_, ht⟩ := text_eq <| isSuffix_parseAsString hp
      exact ⟨_, _, _, hl, .key ht hp rfl hr⟩
    case string hp ha hn =>
      have ⟨_, _, _, hl, hr⟩ := ih hn
      have ⟨_, ht⟩ := text_eq <| isSuffix_parseAsString hp
      exact ⟨_, _, _, hl, .string ht hp rfl ha hr⟩
    case symbol hb hp hm ha hn =>
      have ⟨_, _, _, hl, hr⟩ := ih hn
      have ⟨_, ht⟩ := text_eq <| isSuffix_parseSymbol (List.cons_ne_nil _ _) hp
      exact ⟨_, _, _, hl, .symbol ht hb hm hp rfl ha hr⟩
    case nested ho hp ha hn =>
      have ⟨_, _, _, hc, hi⟩ := ih hp
      have ⟨_, _, _, hl, hr⟩ := ih hn
      rw [hc] at hr
      exact ⟨_, _, _, hl, .nested ho hi ha hr⟩

theorem length_lt (h : cursor <:+ data ∧ cursor ≠ []) : (cursor.drop 1).length < data.length := by
  have hl := h.left.length_le
  have hp := List.length_pos_iff.mpr h.right
  rw [List.length_drop]
  omega

theorem rest_length_lt (h : Reads frame data tokens e rest) : rest.length < data.length := by
  induction h
  case blank ih               => exact Nat.lt_succ_of_lt ih
  case close                  => exact Nat.lt_succ_self _
  case pass ih                => exact Nat.lt_succ_of_lt ih
  case key hp hc _ ih         =>
    exact Nat.lt_trans ih <| hc ▸ length_lt (isSuffix_parseAsString hp)
  case string hp hc _ _ ih    =>
    exact Nat.lt_trans ih <| hc ▸ length_lt (isSuffix_parseAsString hp)
  case symbol hp hc _ _ ih    =>
    exact Nat.lt_trans ih <| hc ▸ length_lt (isSuffix_parseSymbol (List.cons_ne_nil _ _) hp)
  case nested ih₁ ih₂         => exact Nat.lt_succ_of_lt <| Nat.lt_trans ih₂ ih₁

-- What is read is accepted, given enough fuel.
theorem parse (h : Reads frame data tokens e rest) (hf : data.length ≤ fuel) :
    frame.parse fuel data = .ok (e, frame.bracket :: rest) := by
  induction h generalizing fuel <;> rcases fuel with _ | fuel
  case blank.zero | close.zero | pass.zero | key.zero | string.zero | symbol.zero | nested.zero =>
    cases hf
  case blank.succ hb _ ih                =>
    exact JsonFrame.parse_of_looks <| .blank hb <| ih <| Nat.le_of_succ_le_succ hf
  case close.succ hc                     =>
    rw [JsonFrame.bracket_of_closing hc]
    exact JsonFrame.parse_of_looks <| .close hc
  case pass.succ hp _ ih                 =>
    exact JsonFrame.parse_of_looks <| .pass hp <| ih <| Nat.le_of_succ_le_succ hf
  case key.succ hp hc _ ih               =>
    have hlt := length_lt <| isSuffix_parseAsString hp
    have hn := @ih fuel (by rw [← hc]; omega)
    exact JsonFrame.parse_of_looks <| .key hp <| hc ▸ hn
  case string.succ hp hc ha _ ih         =>
    have hlt := length_lt <| isSuffix_parseAsString hp
    have hn := @ih fuel (by rw [← hc]; omega)
    rw [JsonFrame.bracket_of_append ha] at hn
    exact JsonFrame.parse_of_looks <| .string hp ha <| hc ▸ hn
  case symbol.succ hb hm hp hc ha _ ih   =>
    have hlt := length_lt <| isSuffix_parseSymbol (List.cons_ne_nil _ _) hp
    have hn := @ih fuel (by rw [← hc]; omega)
    rw [JsonFrame.bracket_of_append ha] at hn
    exact JsonFrame.parse_of_looks <| .symbol hb hm hp ha <| hc ▸ hn
  case nested.succ ho hi ha hr ih₁ ih₂   =>
    have hlt := hi.rest_length_lt
    have hn := @ih₂ fuel (by rw [List.length_cons] at hf; omega)
    rw [JsonFrame.bracket_of_append ha] at hn
    exact JsonFrame.parse_of_looks <| .nested ho (ih₁ <| Nat.le_of_succ_le_succ hf) ha hn

theorem jsonParse {c : Char} (ho : JsonFrame.opened c = some frame) (h : Reads frame data tokens e rest) :
    jsonParse (c :: data) = .ok (e, frame.bracket :: rest) := by
  rcases JsonFrame.opened_eq ho with ⟨rfl, rfl⟩ | ⟨rfl, rfl⟩
  · exact h.parse (Nat.le_refl _)
  · exact h.parse (Nat.le_refl _)

end Reads
end CfEngine
