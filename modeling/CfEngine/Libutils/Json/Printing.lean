import CfEngine.Libutils.Json.Strings
import CfEngine.Libutils.Json.Tokens
import CfEngine.Libutils.Json.Numbers

namespace CfEngine

-- No character has to be escaped.
def isPlain (s : CString) : Bool :=
  s.all fun c => c ≠ '"' ∧ c ≠ '\\' ∧ ' ' ≤ c

theorem isLetterEscaped_eq_false {c : Char} (h : ' ' ≤ c) : isLetterEscaped c = false := by
  refine decide_eq_false fun hm => ?_
  simp only [List.mem_cons, List.not_mem_nil, or_false] at hm
  rcases hm with rfl | rfl | rfl | rfl | rfl <;> exact absurd h (by decide)

theorem isPlain_cons {c : Char} {s : CString} (h : isPlain (c :: s) = true) :
    c ≠ '"' ∧ c ≠ '\\' ∧ isLetterEscaped c = false ∧ isPlain s = true := by
  rw [isPlain, List.all_cons, Bool.and_eq_true, decide_eq_true_eq] at h
  exact ⟨h.left.left, h.left.right.left, isLetterEscaped_eq_false h.left.right.right, h.right⟩

theorem escapeJsonString_eq_self {s : CString} (h : isPlain s = true) : escapeJsonString s = s := by
  induction s
  case nil         => rfl
  case cons c s ih =>
    have ⟨hq, hb, hl, hs⟩ := isPlain_cons h
    rw [escapeJsonString_cons, escapeJsonChar_eq_self hl hq hb, ih hs]
    rfl

theorem isDecodable_of_isPlain {s : CString} (h : isPlain s = true) : isDecodable s = true := by
  induction s
  case nil         => rfl
  case cons c s ih =>
    have ⟨_, hb, hl, hs⟩ := isPlain_cons h
    simp [isDecodable, hl, hb, ih hs]

namespace JsonElement

-- The trees that the functions for the creation of elements make, with the strings that are allowed.
inductive Made (allowed : CString → Prop) : JsonElement → Prop
  | string {value : CString} (value_allowed : allowed value) : Made allowed (jsonStringCreate value)
  | integer {value : Int32} : Made allowed (jsonIntegerCreate value)
  | bool {value : Bool} : Made allowed (jsonBoolCreate value)
  | null : Made allowed jsonNullCreate
  | real {whole digits : List Char} (signed : IsSigned whole) (fraction : IsFraction digits) :
      Made allowed (primitive .real <| whole ++ '.' :: digits)
  | array {children : List JsonElement} (children_made : ∀ child ∈ children, Made allowed child) :
      Made allowed (array children)
  | object {children : List (CString × JsonElement)} (names_plain : ∀ p ∈ children, isPlain p.1 = true)
      (children_made : ∀ p ∈ children, Made allowed p.2) : Made allowed (object children)

-- What is printed for an element after the indentation.
def body (indent_level : Nat) : JsonElement → CString
  | primitive type value => primitivePrint type value 0
  | container            => print container indent_level

variable {child : JsonElement} {children : List JsonElement} {propertyName : CString} {indent_level : Nat}

theorem printArray_cons :
    printArray (child :: children) indent_level =
      printIndent indent_level ++ (child.body indent_level ++
        ((if children.isEmpty then ['\n'] else [',', '\n']) ++ printArray children indent_level)) := by
  cases child <;> simp [printArray, body, primitivePrint, printIndent]

theorem printObject_cons {children : List (CString × JsonElement)} :
    printObject ((propertyName, child) :: children) indent_level =
      printIndent indent_level ++ '"' :: (propertyName ++ '"' :: ':' :: ' ' :: (child.body indent_level ++
        ((if children.isEmpty then ['\n'] else [',', '\n']) ++ printObject children indent_level))) := by
  cases child <;> simp [printObject, body, primitivePrint, printIndent]

end JsonElement

-- No line after the first one starts with a literal that the searches in the rest of the text could find.
def Calm (data : List Char) : Prop :=
  matchesAfterNewline jsonTrue data = false ∧ matchesAfterNewline jsonFalse data = false

namespace Calm

variable {c : Char} {text data blanks : List Char}

theorem cons (hc : c ≠ '\n') (h : Calm data) : Calm (c :: data) := by
  simp [Calm, matchesAfterNewline, hc, h.left, h.right]

theorem tail (h : Calm (c :: data)) : Calm data := by
  have ⟨ht, hf⟩ := h
  rw [matchesAfterNewline, Bool.or_eq_false_iff] at ht hf
  exact ⟨ht.right, hf.right⟩

theorem append (ht : '\n' ∉ text) (h : Calm data) : Calm (text ++ data) := by
  induction text
  case nil            => exact h
  case cons c text ih =>
    rw [List.mem_cons, not_or] at ht
    exact cons (Ne.symm ht.left) <| ih ht.right

theorem newline (ht : c ≠ 't') (hf : c ≠ 'f') (h : Calm (c :: data)) : Calm ('\n' :: c :: data) := by
  have ⟨h₁, h₂⟩ := h
  have ht : 't' ≠ c := Ne.symm ht
  have hf : 'f' ≠ c := Ne.symm hf
  constructor
  · rw [matchesAfterNewline, h₁]
    simp [jsonTrue, ht]
  · rw [matchesAfterNewline, h₂]
    simp [jsonFalse, hf]

theorem newline_indent {num : Nat} (h : Calm ('\n' :: data)) : Calm ('\n' :: (printIndent num ++ data)) := by
  have hs : '\n' ∉ printIndent num := fun hm => absurd (List.eq_of_mem_replicate hm) (by decide)
  have ha := append hs h.tail
  cases hp : printIndent num
  case nil           => exact h
  case cons c blanks =>
    have hc : c = ' ' := List.eq_of_mem_replicate (hp ▸ List.mem_cons_self : c ∈ printIndent num)
    rw [hp] at ha
    subst hc
    exact newline (by decide) (by decide) ha

end Calm

theorem newline_not_mem_escapeJsonString {s : CString} : '\n' ∉ escapeJsonString s := by
  intro h
  have ⟨c, _, hc⟩ := List.mem_flatMap.mp h
  unfold escapeJsonChar at hc
  split at hc
  case isTrue h  => 
    simp only [List.mem_cons, List.not_mem_nil, or_false] at hc
    grind
  case isFalse h => grind

theorem newline_not_mem {s : CString} (h : isPlain s = true) : '\n' ∉ s :=
  escapeJsonString_eq_self h ▸ newline_not_mem_escapeJsonString

namespace Reads

variable {c : Char} {data rest tail blanks : List Char} {frame frame' : JsonFrame} {tokens : List JsonToken}
  {e child : JsonElement} {s : CString} {indent_level num : Nat}

theorem indented (h : Reads frame data tokens e rest) : Reads frame (printIndent num ++ data) tokens e rest := by
  unfold printIndent
  induction num * spacesPerIndent
  case zero      => exact h
  case succ _ ih => exact .blank (by decide) ih

-- The lines between the children.
theorem separator (last : Bool) (hp : frame.passes ',' = true) (h : Reads frame data tokens e rest) :
    ∃ tokens, Reads frame ((if last then ['\n'] else [',', '\n']) ++ data) tokens e rest := by
  cases last
  case true  => exact ⟨_, .blank (by decide) h⟩
  case false => exact ⟨_, .pass hp <| .blank (by decide) h⟩

theorem name {children : List (CString × JsonElement)} (hs : isPlain s = true)
    (h : Reads (.object children (some s)) data tokens e rest) :
    ∃ tokens, Reads (.object children none) ('"' :: (s ++ '"' :: data)) tokens e rest := by
  have hp := JsonElement.parseAsString_escapeJsonString_iff.mpr (isDecodable_of_isPlain hs) data
  rw [escapeJsonString_eq_self hs] at hp
  have ht : '"' :: (s ++ '"' :: data) = ('"' :: s ++ ['"']) ++ data := by
    simp
  exact ⟨_, .key ht hp rfl h⟩

end Reads

namespace JsonElement

-- The printed element is read as a child of the frame, wherever it stands.
structure IsReadBack (e : JsonElement) : Prop where
  calm (indent_level : Nat) {tail : List Char} : Calm tail → Calm (e.body indent_level ++ tail)
  reads (indent_level : Nat) {tail rest : List Char} {frame frame' : JsonFrame} {tokens : List JsonToken}
    {result : JsonElement} : Calm tail → tail.head?.any isSeparator = true → frame.append e = some frame' →
      Reads frame' tail tokens result rest → ∃ tokens, Reads frame (e.body indent_level ++ tail) tokens result rest

namespace IsReadBack

theorem string {s : CString} (h : isDecodable s = true) : IsReadBack (jsonStringCreate s) := by
  have hb {indent_level} {tail : List Char} :
      (jsonStringCreate s).body indent_level ++ tail = '"' :: (escapeJsonString s ++ '"' :: tail) := by
    simp [body, jsonStringCreate, primitivePrint, printIndent]
  constructor
  case calm  =>
    intro _ _ hc
    rw [hb]
    exact .cons (by decide) <| .append newline_not_mem_escapeJsonString <| .cons (by decide) hc
  case reads =>
    intro _ tail _ _ _ _ _ _ _ ha hr
    have ht : '"' :: (escapeJsonString s ++ '"' :: tail) = ('"' :: escapeJsonString s ++ ['"']) ++ tail := by
      simp
    rw [hb]
    exact ⟨_, .string ht (parseAsString_escapeJsonString_iff.mpr h tail) rfl ha hr⟩

theorem symbol (type : JsonPrimitiveType) (c : Char) (text : List Char) (ht : type ≠ .string)
    (hs : startsSymbol c = true) (hn : '\n' ∉ c :: text)
    (hp : ∀ tail, Calm tail → tail.head?.any isSeparator = true →
      ∃ cursor, parseSymbol (c :: text ++ tail) = .ok (primitive type (c :: text), cursor) ∧
        cursor.drop 1 = tail) :
    IsReadBack (primitive type <| c :: text) := by
  have hb {indent_level} : (primitive type <| c :: text).body indent_level = c :: text := by
    cases type
    case string => exact absurd rfl ht
    all_goals rfl
  constructor
  case calm  =>
    intro _ _ hc
    rw [hb]
    exact hc.append hn
  case reads =>
    intro _ tail _ frame _ _ _ hc hsep ha hr
    have ⟨_, hp, hd⟩ := hp tail hc hsep
    have hs := frame.of_startsSymbol hs
    rw [hb]
    exact ⟨_, .symbol (List.cons_append ..).symm hs.left hs.right hp hd ha hr⟩

theorem parseLiteral_append {tail : List Char} (literal : CString) (hn : literal ≠ [])
    (hs : tail.head?.any isSeparator = true) :
    ∃ cursor, parseLiteral literal (literal ++ tail) = some cursor ∧ cursor.drop 1 = tail := by
  have hl : (literal ++ tail)[literal.length]? = tail.head? := by
    rw [List.getElem?_append_right (Nat.le_refl _), Nat.sub_self, List.head?_eq_getElem?]
  have ha : tail.head?.all isSeparator = true := by
    cases tail
    case nil  => rfl
    case cons => exact hs
  refine ⟨(literal ++ tail).drop (literal.length - 1), ?_, ?_⟩
  · rw [parseLiteral, hl, if_pos ha]
  · have hp := List.length_pos_iff.mpr hn
    rw [List.drop_drop, Nat.sub_add_cancel hp, List.drop_left]

theorem stringMatchLine_append {word tail : List Char} : stringMatchLine word (word ++ tail) = true := by
  simp [stringMatchLine]

theorem stringMatchLine_eq_false {word : CString} (data : List Char) (hc : data.head? ≠ some '^')
    (hp : word.isPrefixOf data = false) (hm : matchesAfterNewline word data = false) :
    stringMatchLine word data = false := by
  have hne : data ≠ '^' :: word := fun he => hc <| he ▸ rfl
  simp only [stringMatchLine, hp, hm, hne, decide_false, Bool.or_false]

theorem parseSymbol_of_literal {data : List Char} {parsed : JsonElement × List Char}
    (hc : ¬data.head?.any fun c => c = '-' ∨ c = '0' ∨ isNonzeroDigit c)
    (hp : (parseAsBoolean data <|> parseAsNull data) = some parsed) : parseSymbol data = .ok parsed := by
  rw [parseSymbol, if_neg hc, hp]

theorem literal_true : IsReadBack (jsonBoolCreate true) := by
  refine symbol .bool 't' "rue".toList nofun (by decide) (by decide) fun tail hc hs => ?_
  have ⟨cursor, hp, hd⟩ := parseLiteral_append jsonTrue (List.cons_ne_nil _ _) hs
  refine ⟨cursor, ?_, hd⟩
  have hb : parseAsBoolean (jsonTrue ++ tail) = some (jsonBoolCreate true, cursor) := by
    rw [parseAsBoolean, if_pos stringMatchLine_append, hp]
    rfl
  have hs : (parseAsBoolean (jsonTrue ++ tail) <|> parseAsNull (jsonTrue ++ tail)) =
      some (jsonBoolCreate true, cursor) := by
    rw [hb]
    rfl
  exact parseSymbol_of_literal nofun hs

theorem literal_false : IsReadBack (jsonBoolCreate false) := by
  refine symbol .bool 'f' "alse".toList nofun (by decide) (by decide) fun tail hc hs => ?_
  have ⟨cursor, hp, hd⟩ := parseLiteral_append jsonFalse (List.cons_ne_nil _ _) hs
  refine ⟨cursor, ?_, hd⟩
  have hc : Calm (jsonFalse ++ tail) := hc.append (by decide)
  have hb : parseAsBoolean (jsonFalse ++ tail) = some (jsonBoolCreate false, cursor) := by
    have ht := stringMatchLine_eq_false (jsonFalse ++ tail) (by simp [jsonFalse]) rfl hc.left
    rw [parseAsBoolean, ht, if_neg Bool.false_ne_true, if_pos stringMatchLine_append, hp]
    rfl
  have hs : (parseAsBoolean (jsonFalse ++ tail) <|> parseAsNull (jsonFalse ++ tail)) =
      some (jsonBoolCreate false, cursor) := by
    rw [hb]
    rfl
  exact parseSymbol_of_literal nofun hs

theorem literal_null : IsReadBack jsonNullCreate := by
  refine symbol .null 'n' "ull".toList nofun (by decide) (by decide) fun tail hc hs => ?_
  have ⟨cursor, hp, hd⟩ := parseLiteral_append jsonNull (List.cons_ne_nil _ _) hs
  refine ⟨cursor, ?_, hd⟩
  have hc : Calm (jsonNull ++ tail) := hc.append (by decide)
  have hb : parseAsBoolean (jsonNull ++ tail) = none := by
    have ht := stringMatchLine_eq_false (jsonNull ++ tail) (by simp [jsonNull]) rfl hc.left
    have hf := stringMatchLine_eq_false (jsonNull ++ tail) (by simp [jsonNull]) rfl hc.right
    rw [parseAsBoolean, ht, hf, if_neg Bool.false_ne_true, if_neg Bool.false_ne_true]
  have hn : parseAsNull (jsonNull ++ tail) = some (jsonNullCreate, cursor) := by
    rw [parseAsNull, if_pos stringMatchLine_append, hp]
    rfl
  have hs : (parseAsBoolean (jsonNull ++ tail) <|> parseAsNull (jsonNull ++ tail)) =
      some (jsonNullCreate, cursor) := by
    rw [hb, hn]
    rfl
  exact parseSymbol_of_literal nofun hs

theorem number (type : JsonPrimitiveType) (text : List Char) (ht : type ≠ .string)
    (hd : ∀ c ∈ text, c = '-' ∨ c = '.' ∨ isJsonDigit c = true)
    (hf : text.head?.any (fun c => c = '-' ∨ c = '0' ∨ isNonzeroDigit c) = true)
    (hp : ∀ tail : List Char, tail.head?.any isSeparator = true →
      ∃ cursor, cursor.drop 1 = tail ∧ parseAsNumber (text ++ tail) = .ok (primitive type text, cursor)) :
    IsReadBack (primitive type text) := by
  rcases text with _ | ⟨c, text⟩
  · exact absurd hf Bool.false_ne_true
  refine symbol type c text ht ?_ ?_ fun tail _ hs => ?_
  · exact startsSymbol_of_number hf
  · intro hn
    exact absurd (hd _ hn) (by decide)
  · have ⟨cursor, hd, hp⟩ := hp tail hs
    exact ⟨cursor, (if_pos hf).trans hp, hd⟩

theorem integer {text : List Char} (h : IsSigned text) : IsReadBack (primitive .integer text) := by
  refine number .integer text nofun (fun c hc => ?_) ?_ fun tail hs => ?_
  · exact (h.chars hc).elim .inl (.inr <| .inr ·)
  · exact List.append_nil text ▸ h.head
  · exact parseAsNumber_signed h hs

theorem real {whole digits : List Char} (h : IsSigned whole) (hf : IsFraction digits) :
    IsReadBack (primitive .real <| whole ++ '.' :: digits) := by
  refine number .real _ nofun (fun c hc => ?_) h.head fun tail hs => ?_
  · cases List.mem_append.mp hc
    case inl hc => exact (h.chars hc).elim .inl (.inr <| .inr ·)
    case inr hc =>
      cases List.mem_cons.mp hc
      case inl hc => exact .inr <| .inl hc
      case inr hc => exact .inr <| .inr <| List.all_eq_true.mp hf.right c hc
  · exact parseAsNumber_real h hf hs

end IsReadBack

section

variable {indent_level : Nat} {data tail : List Char}

theorem calm_indented (num : Nat) (h : Calm data) : Calm (printIndent num ++ data) :=
  h.append fun hm => absurd (List.eq_of_mem_replicate hm) (by decide)

theorem calm_separator (last : Bool) (h : Calm ('\n' :: data)) :
    Calm ((if last then ['\n'] else [',', '\n']) ++ data) := by
  cases last
  case true  => exact h
  case false => exact .cons (by decide) h

theorem isSeparator_separator {last : Bool} :
    ((if last then ['\n'] else [',', '\n']) ++ data).head?.any isSeparator = true := by
  cases last <;> rfl

-- A deeper line starts with a blank.
theorem calm_line (h : Calm data) : Calm ('\n' :: (printIndent (indent_level + 1) ++ data)) := by
  have hs : printIndent (indent_level + 1) = ' ' :: List.replicate (indent_level * spacesPerIndent + 1) ' ' := by
    simp only [printIndent, Nat.add_mul, spacesPerIndent]
    rfl
  have hi := calm_indented (indent_level + 1) h
  rw [hs] at hi ⊢
  exact .newline (by decide) (by decide) hi

-- What is printed of an array from a child on, up to the closing bracket.
theorem isReadBack_children {children : List JsonElement} (indent_level : Nat) (hc : Calm tail)
    (h : ∀ child ∈ children, child.IsReadBack) :
    Calm ('\n' :: (printArray children (indent_level + 1) ++ (printIndent indent_level ++ ']' :: tail))) ∧
      ∀ read, ∃ tokens, Reads (.array read) (printArray children (indent_level + 1) ++
        (printIndent indent_level ++ ']' :: tail)) tokens (array (read ++ children)) tail := by
  induction children
  case nil                    =>
    refine ⟨?_, fun read => ?_⟩
    · have hc : Calm (']' :: tail) := .cons (by decide) hc
      exact .newline_indent <| .newline (by decide) (by decide) hc
    · rw [List.append_nil]
      exact ⟨_, .indented <| .close rfl⟩
  case cons child children ih =>
    have ⟨hcalm, hreads⟩ := ih fun child hm => h child <| List.mem_cons_of_mem _ hm
    have hchild := h child List.mem_cons_self
    have hcalm := calm_separator children.isEmpty hcalm
    simp only [printArray_cons, List.append_assoc]
    refine ⟨calm_line <| hchild.calm _ hcalm, fun read => ?_⟩
    have ⟨_, hr⟩ := hreads (read ++ [child])
    have ⟨_, hr⟩ := hr.separator children.isEmpty rfl
    have ha : (JsonFrame.array read).append child = some (.array (read ++ [child])) := rfl
    have ⟨_, hr⟩ := hchild.reads (indent_level + 1) hcalm isSeparator_separator ha hr
    rw [List.append_assoc] at hr
    exact ⟨_, hr.indented⟩

theorem isReadBack_properties {children : List (CString × JsonElement)} (indent_level : Nat) (hc : Calm tail)
    (hn : ∀ p ∈ children, isPlain p.1 = true) (h : ∀ p ∈ children, p.2.IsReadBack) :
    Calm ('\n' :: (printObject children (indent_level + 1) ++ (printIndent indent_level ++ '}' :: tail))) ∧
      ∀ read, ∃ tokens, Reads (.object read none) (printObject children (indent_level + 1) ++
        (printIndent indent_level ++ '}' :: tail)) tokens (object (read ++ children)) tail := by
  induction children
  case nil                    =>
    refine ⟨?_, fun read => ?_⟩
    · have hc : Calm ('}' :: tail) := .cons (by decide) hc
      exact .newline_indent <| .newline (by decide) (by decide) hc
    · rw [List.append_nil]
      exact ⟨_, .indented <| .close rfl⟩
  case cons p children ih =>
    have ⟨hcalm, hreads⟩ := ih (fun p hm => hn p <| List.mem_cons_of_mem _ hm)
      fun p hm => h p <| List.mem_cons_of_mem _ hm
    have hname := hn p List.mem_cons_self
    have hchild := h p List.mem_cons_self
    have ⟨name, child⟩ := p
    have hcalm := calm_separator children.isEmpty hcalm
    simp only [printObject_cons, List.append_assoc, List.cons_append]
    constructor
    · refine calm_line <| .cons (by decide) <| .append (newline_not_mem hname) ?_
      exact .cons (by decide) <| .cons (by decide) <| .cons (by decide) <| hchild.calm _ hcalm
    · intro read
      have ⟨_, hr⟩ := hreads (read ++ [(name, child)])
      have ⟨_, hr⟩ := hr.separator children.isEmpty rfl
      have ha : (JsonFrame.object read (some name)).append child = some (.object (read ++ [(name, child)]) none) :=
        rfl
      have ⟨_, hr⟩ := hchild.reads (indent_level + 1) hcalm isSeparator_separator ha hr
      rw [List.append_assoc] at hr
      have ⟨_, hr⟩ := (hr.blank (c := ' ') rfl).pass (c := ':') rfl |>.name hname
      exact ⟨_, hr.indented⟩

-- The container that is printed is read from its second character on.
theorem body_array {children : List JsonElement} (indent_level : Nat) (h : ∀ child ∈ children, child.IsReadBack) (hc : Calm tail) :
    ∃ data tokens, (array children).body indent_level ++ tail = '[' :: data ∧ Calm data ∧
      Reads (.array []) data tokens (array children) tail := by
  cases children
  case nil                =>
    exact ⟨']' :: tail, _, rfl, .cons (by decide) hc, .close rfl⟩
  case cons child children =>
    have ⟨hcalm, hreads⟩ := isReadBack_children indent_level hc h
    have ⟨_, hr⟩ := hreads []
    exact ⟨_, _, by simp [body, print], hcalm, .blank (by decide) hr⟩

theorem body_object {children : List (CString × JsonElement)} (indent_level : Nat)
    (hn : ∀ p ∈ children, isPlain p.1 = true) (h : ∀ p ∈ children, p.2.IsReadBack) (hc : Calm tail) :
    ∃ data tokens, (object children).body indent_level ++ tail = '{' :: data ∧ Calm data ∧
      Reads (.object [] none) data tokens (object children) tail := by
  have ⟨hcalm, hreads⟩ := isReadBack_properties indent_level hc hn h
  have ⟨_, hr⟩ := hreads []
  exact ⟨_, _, by simp [body, print], hcalm, .blank (by decide) hr⟩

theorem isReadBack_array {children : List JsonElement} (h : ∀ child ∈ children, child.IsReadBack) :
    (array children).IsReadBack := by
  constructor
  case calm  =>
    intro indent_level _ hc
    have ⟨_, _, hb, hd, _⟩ := body_array indent_level h hc
    exact hb ▸ hd.cons (by decide)
  case reads =>
    intro indent_level _ _ _ _ _ _ hc _ ha hr
    have ⟨_, _, hb, _, hi⟩ := body_array indent_level h hc
    rw [hb]
    exact ⟨_, .nested rfl hi ha hr⟩

theorem isReadBack_object {children : List (CString × JsonElement)} (hn : ∀ p ∈ children, isPlain p.1 = true)
    (h : ∀ p ∈ children, p.2.IsReadBack) : (object children).IsReadBack := by
  constructor
  case calm  =>
    intro indent_level _ hc
    have ⟨_, _, hb, hd, _⟩ := body_object indent_level hn h hc
    exact hb ▸ hd.cons (by decide)
  case reads =>
    intro indent_level _ _ _ _ _ _ hc _ ha hr
    have ⟨_, _, hb, _, hi⟩ := body_object indent_level hn h hc
    rw [hb]
    exact ⟨_, .nested rfl hi ha hr⟩

end

theorem Made.isReadBack {allowed : CString → Prop} {e : JsonElement}
    (ha : ∀ s, allowed s → isDecodable s = true) (h : e.Made allowed) : e.IsReadBack := by
  induction h
  case string hs            => exact .string <| ha _ hs
  case integer              => exact .integer isSigned_toString
  case bool value           => 
    cases value
    case false => exact .literal_false
    case true  => exact .literal_true
  case null                 => exact .literal_null
  case real hs hf           => exact .real hs hf
  case array ih             => exact isReadBack_array ih
  case object hn _ ih       => exact isReadBack_object hn ih

theorem Made.parse_print {allowed : CString → Prop} {e : JsonElement}
    (ha : ∀ s, allowed s → isDecodable s = true) (h : e.Made allowed) (hc : e.isContainer = true) :
    ∃ bracket, jsonParse (e.print 0) = .ok (e, [bracket]) := by
  have hcalm : Calm [] := ⟨rfl, rfl⟩
  cases h
  case array h     =>
    have ⟨_, _, hb, _, hr⟩ := body_array 0 (fun child hm => (h child hm).isReadBack ha) hcalm
    rw [List.append_nil] at hb
    exact ⟨_, (congrArg jsonParse hb).trans <| hr.jsonParse rfl⟩
  case object hn h =>
    have ⟨_, _, hb, _, hr⟩ := body_object 0 hn (fun p hm => (h p hm).isReadBack ha) hcalm
    rw [List.append_nil] at hb
    exact ⟨_, (congrArg jsonParse hb).trans <| hr.jsonParse rfl⟩
  all_goals cases hc

theorem jsonParse_print {e : JsonElement} (h : e.Made (isPlain · = true)) (hc : e.isContainer = true) :
    ∃ bracket, jsonParse (e.print 0) = .ok (e, [bracket]) :=
  h.parse_print (fun _ => isDecodable_of_isPlain) hc

theorem jsonParse_print_nested :
    let e := object [("list".toList, array [jsonStringCreate "x y".toList, jsonIntegerCreate (-12),
      primitive .real ('-' :: ['0'] ++ '.' :: ['5', '0']), jsonNullCreate, jsonBoolCreate false]),
      ("empty".toList, object [])]
    ∃ bracket, jsonParse (e.print 0) = .ok (e, [bracket]) := by
  have hl : (array [jsonStringCreate "x y".toList, jsonIntegerCreate (-12),
      primitive .real ('-' :: ['0'] ++ '.' :: ['5', '0']), jsonNullCreate,
      jsonBoolCreate false]).Made (isPlain · = true) := by
    apply Made.array
    simp only [List.forall_mem_cons]
    exact ⟨.string (by decide), .integer, .real (.negative .zero) ⟨nofun, by decide⟩, .null, .bool, nofun⟩
  refine jsonParse_print (.object (by decide) ?_) rfl
  simp only [List.forall_mem_cons]
  exact ⟨hl, .object nofun nofun, nofun⟩

-- A string that is written is read back, and so is every tree that has it beside strings that are not escaped.
def KeepsString (s : CString) : Prop :=
  (∀ rest, parseAsString ('"' :: escapeJsonString s ++ '"' :: rest) = .ok (s, '"' :: rest)) ∧
    ∀ e : JsonElement, e.Made (fun t => t = s ∨ isPlain t = true) → e.isContainer = true →
      ∃ bracket, jsonParse (e.print 0) = .ok (e, [bracket])

theorem keepsString_iff {s : CString} : KeepsString s ↔ isDecodable s = true := by
  constructor
  · exact fun h => parseAsString_escapeJsonString_iff.mp h.left
  · intro hs
    refine ⟨parseAsString_escapeJsonString_iff.mpr hs, fun e he hc => he.parse_print (fun t ht => ?_) hc⟩
    cases ht
    case inl ht => exact ht ▸ hs
    case inr ht => exact isDecodable_of_isPlain ht

theorem not_keepsString_newline : ¬KeepsString ['a', '\n'] :=
  fun h => absurd (parseAsString_escapeJsonString_iff.mp h.left) (by decide)

end JsonElement
end CfEngine
