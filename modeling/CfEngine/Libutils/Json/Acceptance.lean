import CfEngine.Libutils.Json.Grammar

namespace CfEngine

open JsonElement

namespace JsonFrame

variable {c : Char} {frame inner : JsonFrame}

theorem opened_array : opened '[' = some (array []) :=
  rfl

theorem opened_object : opened '{' = some (object [] none) :=
  rfl

-- The characters that the loops look at come apart.
inductive Look
  | blank
  | quote
  | bracket
  | close
  | pass
  | symbol

def look (c : Char) (frame : JsonFrame) : Look :=
  if isWhitespace c then .blank
  else if c = '"' then .quote
  else if c = '[' ∨ c = '{' then .bracket
  else if frame.closing = some c then .close
  else if frame.passes c then .pass
  else .symbol

theorem look_of_closing (h : frame.closing = some c) : frame.look c = .close := by
  rcases frame with _ | ⟨_, _ | _⟩ <;> cases h <;> rfl

theorem look_of_passes (h : frame.passes c = true) : frame.look c = .pass := by
  rcases frame with _ | ⟨_, _ | _⟩ <;> cases of_decide_eq_true h <;> rfl

theorem look_of_opened (h : opened c = some inner) : frame.look c = .bracket := by
  rcases opened_eq h with ⟨rfl, _⟩ | ⟨rfl, _⟩ <;> rfl

theorem look_of_blank (h : isWhitespace c = true) : frame.look c = .blank :=
  if_pos h

theorem look_of_symbol (hb : isWhitespace c = false) (hm : frame.isMark c = false) :
    frame.look c = .symbol := by
  rw [look, if_neg (Bool.eq_false_iff.mp hb)]
  rcases frame with _ | ⟨_, _ | _⟩
  · simp only [isMark, List.mem_cons, List.not_mem_nil, or_false, decide_eq_false_iff_not, not_or] at hm
    simp [closing, passes, hm, Ne.symm hm.2.2.2.2]
  · simp only [isMark, List.mem_cons, List.not_mem_nil, or_false, decide_eq_false_iff_not, not_or] at hm
    simp [closing, passes, hm, Ne.symm hm.2.2.2.2.2]
  · simp only [isMark, List.mem_cons, List.not_mem_nil, or_false, decide_eq_false_iff_not, not_or] at hm
    simp [closing, passes, hm]

end JsonFrame

namespace Reads

variable {c : Char} {data rest blank : List Char} {frame frame' inner : JsonFrame} {tokens : List JsonToken}
  {e child : JsonElement}

-- What is read first, by the kind of the character.
def ReadsFirst (frame : JsonFrame) (c : Char) (data : List Char) (tokens : List JsonToken) (e : JsonElement)
    (rest : List Char) : JsonFrame.Look → Prop
  | .blank   => Reads frame data tokens e rest
  | .close   => tokens = [.mark c] ∧ e = frame.element ∧ rest = data
  | .pass    => ∃ tokens', tokens = .mark c :: tokens' ∧ Reads frame data tokens' e rest
  | .quote   =>
    ∃ value text data' cursor frame' tokens', '"' :: data = text ++ data' ∧
      parseAsString ('"' :: data) = .ok (value, cursor) ∧ cursor.drop 1 = data' ∧
      tokens = .string value text :: tokens' ∧ Reads frame' data' tokens' e rest ∧
      (frame.append (jsonStringCreate value) = some frame' ∨
        ∃ children, frame = .object children none ∧ frame' = .object children (some value))
  | .bracket =>
    ∃ inner inside child data' frame' tokens', JsonFrame.opened c = some inner ∧
      Reads inner data inside child data' ∧ frame.append child = some frame' ∧
      tokens = .mark c :: (inside ++ tokens') ∧ Reads frame' data' tokens' e rest
  | .symbol  =>
    ∃ child text data' cursor frame' tokens', c :: data = text ++ data' ∧
      parseSymbol (c :: data) = .ok (child, cursor) ∧ cursor.drop 1 = data' ∧
      frame.append child = some frame' ∧ tokens = .symbol child text :: tokens' ∧
      Reads frame' data' tokens' e rest

theorem readsFirst (h : Reads frame (c :: data) tokens e rest) :
    ReadsFirst frame c data tokens e rest (frame.look c) := by
  generalize hd : c :: data = data₀ at h
  cases h
  case blank hb hn               =>
    cases hd
    rw [JsonFrame.look_of_blank hb]
    exact hn
  case close hc                  =>
    cases hd
    rw [JsonFrame.look_of_closing hc]
    exact ⟨rfl, rfl, rfl⟩
  case pass hp hn                =>
    cases hd
    rw [JsonFrame.look_of_passes hp]
    exact ⟨_, rfl, hn⟩
  case key ht hp hc hn           =>
    cases hd
    exact ⟨_, _, _, _, _, _, ht, hp, hc, rfl, hn, .inr ⟨_, rfl, rfl⟩⟩
  case string ht hp hc ha hn     =>
    cases hd
    exact ⟨_, _, _, _, _, _, ht, hp, hc, rfl, hn, .inl ha⟩
  case symbol ht hb hp hc hm ha hn  =>
    cases hd
    rw [JsonFrame.look_of_symbol hb hm]
    exact ⟨_, _, _, _, _, _, ht, hp, hc, ha, rfl, hn⟩
  case nested ho hr ha hn        =>
    cases hd
    rw [JsonFrame.look_of_opened ho]
    exact ⟨_, _, _, _, _, _, ho, hr, ha, rfl, hn⟩

theorem of_blank (hb : isBlank blank = true) (h : Reads frame (blank ++ data) tokens e rest) :
    Reads frame data tokens e rest := by
  induction blank
  case nil             => exact h
  case cons c blank ih =>
    rw [isBlank, List.all_cons, Bool.and_eq_true] at hb
    have hf := readsFirst h
    rw [JsonFrame.look_of_blank hb.left] at hf
    exact ih hb.right hf

theorem of_pass (hp : frame.passes c = true) (h : Reads frame (c :: data) tokens e rest) :
    ∃ tokens', tokens = .mark c :: tokens' ∧ Reads frame data tokens' e rest := by
  have hf := readsFirst h
  rw [JsonFrame.look_of_passes hp] at hf
  exact hf

theorem of_close (hc : frame.closing = some c) (h : Reads frame (c :: data) tokens e rest) :
    tokens = [.mark c] ∧ e = frame.element ∧ rest = data := by
  have hf := readsFirst h
  rw [JsonFrame.look_of_closing hc] at hf
  exact hf

end Reads

namespace JsonFrame

variable {frame frame₁ frame₂ : JsonFrame} {child₁ child₂ e : JsonElement}

-- The element has the children that the frame has so far.
def Yields (e : JsonElement) : JsonFrame → Prop
  | array children    => ∃ more, e = .array (children ++ more)
  | object children _ => ∃ more, e = .object (children ++ more)

theorem yields_element : frame.Yields frame.element := by
  cases frame
  case array  => exact ⟨[], congrArg _ (List.append_nil _).symm⟩
  case object => exact ⟨[], congrArg _ (List.append_nil _).symm⟩

theorem yields_of_append (ha : frame.append child₁ = some frame₁) (h : frame₁.Yields e) : frame.Yields e := by
  rcases frame with _ | ⟨_, _ | _⟩ <;> cases ha
  · have ⟨more, hm⟩ := h
    exact ⟨child₁ :: more, by rw [hm, List.append_assoc]; rfl⟩
  · have ⟨more, hm⟩ := h
    exact ⟨_ :: more, by rw [hm, List.append_assoc]; rfl⟩

-- The element determines what is added to the frame next.
theorem append_unique (h₁ : frame.append child₁ = some frame₁) (h₂ : frame.append child₂ = some frame₂)
    (hy₁ : frame₁.Yields e) (hy₂ : frame₂.Yields e) : child₁ = child₂ := by
  rcases frame with _ | ⟨_, _ | _⟩ <;> cases h₁ <;> cases h₂
  · have ⟨_, hm₁⟩ := hy₁
    have ⟨_, hm₂⟩ := hy₂
    have hm := hm₁.symm.trans hm₂
    simp at hm
    exact hm.left
  · have ⟨_, hm₁⟩ := hy₁
    have ⟨_, hm₂⟩ := hy₂
    have hm := hm₁.symm.trans hm₂
    simp at hm
    exact hm.left

end JsonFrame

theorem Reads.yields {data rest : List Char} {frame : JsonFrame} {tokens : List JsonToken} {e : JsonElement}
    (h : Reads frame data tokens e rest) : frame.Yields e := by
  induction h
  case blank ih        => exact ih
  case close           => exact JsonFrame.yields_element
  case pass ih         => exact ih
  case key ih          => exact ih
  case string ha _ ih  => exact JsonFrame.yields_of_append ha ih
  case symbol ha _ ih  => exact JsonFrame.yields_of_append ha ih
  case nested ha _ _ ih => exact JsonFrame.yields_of_append ha ih

-- What is read where the grammar has a part of the text.
def ReadsRegularly : JsonPart → List Char → Prop
  | .value e, text          =>
    ∀ {frame frame' : JsonFrame} {tail rest : List Char} {tokens : List JsonToken} {result : JsonElement},
      frame.append e = some frame' → frame'.Yields result → tail.head?.any isSeparator = true →
        Reads frame (text ++ tail) tokens result rest →
          ∃ tokens', Reads frame' tail tokens' result rest ∧
            ∀ {previous}, previous.endsValue = false →
              (∀ {ended}, ended.endsValue = true → Regular ended tokens') → Regular previous tokens
  | .elements children, text =>
    ∀ {read : List JsonElement} {tail rest : List Char} {tokens : List JsonToken},
      Reads (.array read) (text ++ ']' :: tail) tokens (array (read ++ children)) rest →
        rest = tail ∧ ∀ {previous}, previous.endsValue = false → Regular previous tokens
  | .members children, text =>
    ∀ {read : List (CString × JsonElement)} {tail rest : List Char} {tokens : List JsonToken},
      Reads (.object read none) (text ++ '}' :: tail) tokens (object (read ++ children)) rest →
        rest = tail ∧ ∀ {previous}, previous.endsValue = false → Regular previous tokens

namespace JsonToken

variable {previous next : JsonToken}

theorem mayPrecede_of_startsValue (hp : previous.endsValue = false) (hn : next.startsValue = true) :
    previous.mayPrecede next = true := by
  have hm : next.isComma = false ∧ next.isColon = false := by
    cases next
    case mark c =>
      rcases of_decide_eq_true hn with rfl | rfl <;> exact ⟨rfl, rfl⟩
    all_goals exact ⟨rfl, rfl⟩
  simp [mayPrecede, hp, hn, hm]

theorem mayPrecede_of_endsValue (hp : previous.endsValue = true) (hn : next.startsValue = false) :
    previous.mayPrecede next = true := by
  have hm : previous.isComma = false ∧ previous.isColon = false := by
    cases previous
    case mark c =>
      rcases of_decide_eq_true hp with rfl | rfl <;> exact ⟨rfl, rfl⟩
    all_goals exact ⟨rfl, rfl⟩
  simp [mayPrecede, hp, hn, hm]

end JsonToken

theorem parseAsString_append {text tail value : List Char} (h : parseAsString text = .ok (value, ['"'])) :
    parseAsString (text ++ tail) = .ok (value, '"' :: tail) := by
  have ⟨text', hd, ht⟩ := parseAsString_local h
  rw [hd, List.append_assoc]
  exact ht tail

theorem append_unique_of_separator {text₁ text₂ tail₁ tail₂ : List Char} (h : text₁ ++ tail₁ = text₂ ++ tail₂)
    (h₁ : text₁.all (!isSeparator ·) = true) (h₂ : text₂.all (!isSeparator ·) = true)
    (ht₁ : tail₁.head?.all isSeparator = true) (ht₂ : tail₂.head?.all isSeparator = true) : text₁ = text₂ := by
  have ne {text : List Char} (h : text.all (!isSeparator ·) = true) : ∀ c ∈ text, isSeparator c = false :=
    fun c hc => by simpa using List.all_eq_true.mp h c hc
  exact append_unique_of_head h (ne h₁) (ne h₂) ht₁ ht₂ |>.left

theorem IsLiteral.unique {text₁ text₂ : CString} {e : JsonElement} (h₁ : IsLiteral text₁ e)
    (h₂ : IsLiteral text₂ e) : text₁ = text₂ := by
  generalize he : e = e' at h₂
  cases h₁ <;> cases h₂ <;> cases he <;> rfl

namespace ReadsRegularly

variable {text : List Char} {e : JsonElement}

theorem string {value : CString} (hs : IsStringText text) (hr : parseAsString text = .ok (value, ['"'])) :
    ReadsRegularly (.value <| jsonStringCreate value) text := by
  intro frame frame' tail rest tokens result ha _ _ h
  have ⟨s, _, ht⟩ := hs
  have hp : parseAsString (text ++ tail) = _ := parseAsString_append hr
  rw [ht, List.cons_append] at h hp
  have ⟨_, text', _, _, _, tokens', hd, hp', hc, htokens, hn, hf⟩ := h.readsFirst
  cases hp.symm.trans hp'
  cases hc
  have htext : text' = text := by
    rw [ht]
    exact (List.append_cancel_right hd).symm
  rcases hf with hf | ⟨_, rfl, rfl⟩
  · cases ha.symm.trans hf
    refine ⟨tokens', hn, fun hprev hcont => ?_⟩
    rw [htokens, htext]
    exact ⟨JsonToken.mayPrecede_of_startsValue hprev rfl, hs, hcont rfl⟩
  · cases ha

theorem symbol (hc : text.head?.any startsSymbol = true) (ht : (JsonToken.symbol e text).Spelled)
    (hp : ∀ {tail cursor}, tail.head?.any isSeparator = true → parseSymbol (text ++ tail) = .ok (e, cursor) →
      cursor.drop 1 = tail) : ReadsRegularly (.value e) text := by
  intro frame frame' tail rest tokens result ha hy hsep h
  rcases text with _ | ⟨c, s⟩
  · exact absurd hc Bool.false_ne_true
  have hl : frame.look c = .symbol :=
    have ⟨hb, hm⟩ := frame.of_startsSymbol hc
    JsonFrame.look_of_symbol hb hm
  have hf := Reads.readsFirst h
  rw [hl] at hf
  have ⟨child, text', _, _, _, tokens', hd, hp', hcursor, hf, htokens, hn⟩ := hf
  cases JsonFrame.append_unique ha hf hy hn.yields
  cases ha.symm.trans hf
  cases hcursor.symm.trans <| hp hsep hp'
  have htext : c :: s = text' := List.append_cancel_right hd
  refine ⟨tokens', hn, fun hprev hcont => ?_⟩
  rw [htokens, ← htext]
  exact ⟨JsonToken.mayPrecede_of_startsValue hprev rfl, ht, hcont rfl⟩

theorem number (h : IsNumberText text) :
    ReadsRegularly (.value <| primitive (if '.' ∈ text then .real else .integer) text) text := by
  apply symbol
  · have hh : (text ++ []).head?.any _ = true := h.head
    rw [List.append_nil] at hh
    rcases text with _ | ⟨c, s⟩
    · cases hh
    · exact startsSymbol_of_number hh
  · exact .inr h
  · intro tail cursor hsep hp
    rw [parseSymbol, if_pos h.head] at hp
    obtain ⟨text', tail', hd, _, hall, hsep', hc, _⟩ := parseAsNumber_eq h.head hp
    have hsep : tail.head?.all isSeparator = true := by
      cases tail
      case nil  => rfl
      case cons => exact hsep
    cases append_unique_of_separator hd h.no_separator hall hsep hsep'
    rw [hc, List.append_cancel_left hd]

theorem literal (h : IsLiteral text e) : ReadsRegularly (.value e) text := by
  apply symbol
  · cases h <;> decide
  · exact .inl h
  · intro tail cursor _ hp
    have hn : ¬(text ++ tail).head?.any (fun c => c = '-' ∨ c = '0' ∨ isNonzeroDigit c) := by
      cases h <;> exact nofun
    rw [parseSymbol, if_neg hn] at hp
    split at hp
    case h_1 parsed ho =>
      cases hp
      obtain ⟨literal, hl, _, hc⟩ := isLiteral_of_parse ho
      cases hl.unique h
      obtain ⟨_, hc⟩ := Option.ite_none_right_eq_some.mp hc
      have hpos := List.length_pos_iff.mpr h.ne_nil
      rw [← Option.some.inj hc, List.drop_drop, Nat.sub_add_cancel hpos, List.drop_left]
    case h_2           => cases hp

theorem container {c : Char} {inner : JsonFrame} (ho : JsonFrame.opened c = some inner)
    (hr : ∀ {tail rest tokens}, Reads inner (text ++ inner.bracket :: tail) tokens e rest →
      rest = tail ∧ Regular (.mark c) tokens) :
    ReadsRegularly (.value e) (c :: (text ++ [inner.bracket])) := by
  intro frame frame' tail rest tokens result ha hy _ h
  rw [List.cons_append, List.append_assoc] at h
  have hf := Reads.readsFirst h
  rw [JsonFrame.look_of_opened ho] at hf
  have ⟨_, inside, _, _, _, tokens', ho', hi, hf, htokens, hn⟩ := hf
  cases ho.symm.trans ho'
  cases JsonFrame.append_unique ha hf hy hn.yields
  cases ha.symm.trans hf
  have ⟨hrest, hregular⟩ := hr hi
  cases hrest
  have ⟨init, hinit⟩ := hi.append_bracket
  refine ⟨tokens', hn, fun hprev hcont => ?_⟩
  have hs := JsonFrame.startsValue_of_opened ho
  rw [htokens]
  refine ⟨JsonToken.mayPrecede_of_startsValue hprev hs, trivial, ?_⟩
  rw [hinit, List.append_assoc, List.singleton_append, regular_append, ← hinit]
  exact ⟨hregular, hcont JsonFrame.endsValue_bracket⟩

end ReadsRegularly

namespace Reads

variable {blank data tail rest : List Char} {c : Char} {frame : JsonFrame} {tokens : List JsonToken} {e : JsonElement}

-- The end of a container after one of its values.
theorem of_end (hc : frame.closing = some c) (hb : isBlank blank = true)
    (h : Reads frame (blank ++ c :: tail) tokens e rest) :
    rest = tail ∧ ∀ {ended : JsonToken}, ended.endsValue = true → Regular ended tokens := by
  have ⟨ht, _, hr⟩ := (h.of_blank hb).of_close hc
  have hs : (JsonToken.mark c).startsValue = false := by
    rcases frame with _ | ⟨_, _ | _⟩ <;> cases hc <;> rfl
  refine ⟨hr, fun he => ?_⟩
  rw [ht]
  exact ⟨JsonToken.mayPrecede_of_endsValue he hs, trivial, trivial⟩

theorem of_empty {opening : Char} (ho : JsonFrame.opened opening = some frame) (hc : frame.closing = some c)
    (hb : isBlank blank = true) (h : Reads frame (blank ++ c :: tail) tokens e rest) :
    rest = tail ∧ Regular (.mark opening) tokens := by
  have ⟨ht, _, hr⟩ := (h.of_blank hb).of_close hc
  refine ⟨hr, ?_⟩
  rw [ht]
  rcases JsonFrame.opened_eq ho with ⟨rfl, rfl⟩ | ⟨rfl, rfl⟩
  · cases hc
    exact ⟨rfl, trivial, trivial⟩
  · cases hc
    exact ⟨rfl, trivial, trivial⟩

theorem of_mark (hp : frame.passes c = true) (hb : isBlank blank = true)
    (h : Reads frame (blank ++ c :: data) tokens e rest) :
    ∃ tokens', Reads frame data tokens' e rest ∧
      ∀ {ended : JsonToken}, ended.endsValue = true → Regular (.mark c) tokens' → Regular ended tokens := by
  have ⟨tokens', ht, hn⟩ := (h.of_blank hb).of_pass hp
  have hs : (JsonToken.mark c).startsValue = false := by
    rcases frame with _ | ⟨_, _ | _⟩ <;> cases of_decide_eq_true hp <;> rfl
  refine ⟨tokens', hn, fun he hr => ?_⟩
  rw [ht]
  exact ⟨JsonToken.mayPrecede_of_endsValue he hs, trivial, hr⟩

theorem of_key {children : List (CString × JsonElement)} {key name : CString} (hs : IsStringText key)
    (hr : parseAsString key = .ok (name, ['"']))
    (h : Reads (.object children none) (key ++ data) tokens e rest) :
    ∃ token tokens', Reads (.object children (some name)) data tokens' e rest ∧ token.endsValue = true ∧
      ∀ {previous : JsonToken}, previous.endsValue = false → Regular token tokens' → Regular previous tokens := by
  have ⟨s, _, ht⟩ := hs
  have hp : parseAsString (key ++ data) = _ := parseAsString_append hr
  rw [ht, List.cons_append] at h hp
  have ⟨_, text', _, _, _, tokens', hd, hp', hc, htokens, hn, hf⟩ := h.readsFirst
  cases hp.symm.trans hp'
  cases hc
  have htext : text' = key := by
    rw [ht]
    exact (List.append_cancel_right hd).symm
  rcases hf with hf | ⟨_, hf, rfl⟩
  · cases hf
  · cases hf
    refine ⟨.string name key, tokens', hn, rfl, fun hprev hcont => ?_⟩
    rw [htokens, htext]
    exact ⟨JsonToken.mayPrecede_of_startsValue hprev rfl, hs, hcont⟩

end Reads

theorem head_isSeparator {blank : List Char} (hb : isBlank blank = true) {c : Char} {data : List Char}
    (hc : isSeparator c = true) : (blank ++ c :: data).head?.any isSeparator = true := by
  cases blank
  case nil  => exact hc
  case cons =>
    rw [isBlank, List.all_cons, Bool.and_eq_true] at hb
    exact decide_eq_true <| .inl hb.left

namespace ReadsRegularly

variable {text blank blank' more : List Char} {e : JsonElement} {children : List JsonElement}

theorem element (hb : isBlank blank = true) (hv : ReadsRegularly (.value e) text) (hb' : isBlank blank' = true) :
    ReadsRegularly (.elements [e]) (blank ++ (text ++ blank')) := by
  intro read tail rest tokens h
  rw [List.append_assoc, List.append_assoc] at h
  have hy : (JsonFrame.array (read ++ [e])).Yields (.array (read ++ [e])) :=
    ⟨[], by rw [List.append_nil]⟩
  have ⟨_, hn, hregular⟩ := hv rfl hy (head_isSeparator hb' (by decide)) (h.of_blank hb)
  have ⟨hrest, hcont⟩ := hn.of_end rfl hb'
  exact ⟨hrest, fun hprev => hregular hprev hcont⟩

theorem elements (hb : isBlank blank = true) (hv : ReadsRegularly (.value e) text) (hb' : isBlank blank' = true)
    (hn : ReadsRegularly (.elements children) more) :
    ReadsRegularly (.elements (e :: children)) (blank ++ (text ++ (blank' ++ ',' :: more))) := by
  intro read tail rest tokens h
  simp only [List.append_assoc, List.cons_append] at h
  have hy : (JsonFrame.array (read ++ [e])).Yields (.array (read ++ e :: children)) :=
    ⟨children, by rw [List.append_assoc]; rfl⟩
  have ⟨_, hr, hregular⟩ := hv rfl hy (head_isSeparator hb' (by decide)) (h.of_blank hb)
  have ⟨_, hr, hcomma⟩ := hr.of_mark rfl hb'
  rw [List.append_cons read e children] at hr
  have ⟨hrest, hcont⟩ := hn hr
  exact ⟨hrest, fun hprev => hregular hprev fun he => hcomma he <| hcont rfl⟩

variable {blank₁ blank₂ key : List Char} {name : CString} {properties : List (CString × JsonElement)}

theorem member (hb : isBlank blank = true) (hs : IsStringText key) (hp : parseAsString key = .ok (name, ['"']))
    (h₁ : isBlank blank₁ = true) (h₂ : isBlank blank₂ = true) (hv : ReadsRegularly (.value e) text)
    (hb' : isBlank blank' = true) :
    ReadsRegularly (.members [(name, e)])
      (blank ++ (key ++ (blank₁ ++ ':' :: (blank₂ ++ (text ++ blank'))))) := by
  intro read tail rest tokens h
  simp only [List.append_assoc, List.cons_append] at h
  have hy : (JsonFrame.object (read ++ [(name, e)]) none).Yields (.object (read ++ [(name, e)])) :=
    ⟨[], by rw [List.append_nil]⟩
  have ⟨_, _, hr, hkey, hstart⟩ := (h.of_blank hb).of_key hs hp
  have ⟨_, hr, hcolon⟩ := hr.of_mark rfl h₁
  have ⟨_, hn, hregular⟩ := hv rfl hy (head_isSeparator hb' (by decide)) (hr.of_blank h₂)
  have ⟨hrest, hcont⟩ := hn.of_end rfl hb'
  exact ⟨hrest, fun hprev => hstart hprev <| hcolon hkey <| hregular rfl hcont⟩

theorem members (hb : isBlank blank = true) (hs : IsStringText key) (hp : parseAsString key = .ok (name, ['"']))
    (h₁ : isBlank blank₁ = true) (h₂ : isBlank blank₂ = true) (hv : ReadsRegularly (.value e) text)
    (hb' : isBlank blank' = true) (hn : ReadsRegularly (.members properties) more) :
    ReadsRegularly (.members ((name, e) :: properties))
      (blank ++ (key ++ (blank₁ ++ ':' :: (blank₂ ++ (text ++ (blank' ++ ',' :: more)))))) := by
  intro read tail rest tokens h
  simp only [List.append_assoc, List.cons_append] at h
  have hy : (JsonFrame.object (read ++ [(name, e)]) none).Yields (.object (read ++ (name, e) :: properties)) :=
    ⟨properties, by rw [List.append_assoc]; rfl⟩
  have ⟨_, _, hr, hkey, hstart⟩ := (h.of_blank hb).of_key hs hp
  have ⟨_, hr, hcolon⟩ := hr.of_mark rfl h₁
  have ⟨_, hr, hregular⟩ := hv rfl hy (head_isSeparator hb' (by decide)) (hr.of_blank h₂)
  have ⟨_, hr, hcomma⟩ := hr.of_mark rfl hb'
  rw [List.append_cons read (name, e) properties] at hr
  have ⟨hrest, hcont⟩ := hn hr
  exact ⟨hrest, fun hprev => hstart hprev <| hcolon hkey <| hregular rfl fun he => hcomma he <| hcont rfl⟩

end ReadsRegularly

-- The loops read a text of the grammar as regular tokens.
theorem IsJson.readsRegularly {part : JsonPart} {text : List Char} (h : IsJson part text) :
    ReadsRegularly part text := by
  induction h
  case string hs hr                          => exact ReadsRegularly.string hs hr
  case number hs                             => exact ReadsRegularly.number hs
  case literal hs                            => exact ReadsRegularly.literal hs
  case emptyArray hb                         =>
    exact ReadsRegularly.container JsonFrame.opened_array <| Reads.of_empty JsonFrame.opened_array rfl hb
  case array ih                              =>
    refine ReadsRegularly.container JsonFrame.opened_array fun h => ?_
    have ⟨hr, ht⟩ := ih h
    exact ⟨hr, ht rfl⟩
  case emptyObject hb                        =>
    exact ReadsRegularly.container JsonFrame.opened_object <| Reads.of_empty JsonFrame.opened_object rfl hb
  case object ih                             =>
    refine ReadsRegularly.container JsonFrame.opened_object fun h => ?_
    have ⟨hr, ht⟩ := ih h
    exact ⟨hr, ht rfl⟩
  case element hb _ hb' ih                   => exact ReadsRegularly.element hb ih hb'
  case elements hb _ hb' _ ih ihn            => exact ReadsRegularly.elements hb ih hb' ihn
  case member hb hs hr h₁ h₂ _ hb' ih        => exact ReadsRegularly.member hb hs hr h₁ h₂ ih hb'
  case members hb hs hr h₁ h₂ _ hb' _ ih ihn => exact ReadsRegularly.members hb hs hr h₁ h₂ ih hb' ihn


-- The text is a container of the grammar, after blanks.
def IsJsonText (e : JsonElement) (text : List Char) : Prop :=
  ∃ blank container, isBlank blank = true ∧ text = blank ++ container ∧ e.isContainer = true ∧
    IsJson (.value e) container

-- What is accepted is JSON, up to the character that the cursor is left on.
def AcceptsJson (input : List Char) : Prop :=
  ∀ e last, jsonParse input = .ok (e, last) →
    ∃ text c rest, last = c :: rest ∧ input = text ++ rest ∧ IsJsonText e text

-- The tokens that are read of the input are regular, if they are read up to the end of a container.
def IsRegularInput (input : List Char) : Prop :=
  ∀ {blank data rest c frame tokens e}, input = blank ++ c :: data → isBlank blank = true →
    JsonFrame.opened c = some frame → Reads frame data tokens e rest → Regular (.mark c) tokens

variable {input blank data rest last : List Char} {c : Char} {frame : JsonFrame} {tokens : List JsonToken}
  {e : JsonElement}

theorem jsonParse_blank (hb : isBlank blank = true) : jsonParse (blank ++ data) = jsonParse data := by
  induction blank
  case nil             => rfl
  case cons c blank ih =>
    rw [isBlank, List.all_cons, Bool.and_eq_true] at hb
    have ho : c ≠ '{' := fun he => absurd hb.left (he ▸ by decide)
    have ha : c ≠ '[' := fun he => absurd hb.left (he ▸ by decide)
    rw [List.cons_append, jsonParse, if_neg ho, if_neg ha, if_pos hb.left]
    exact ih hb.right

theorem reads_of_jsonParse (h : jsonParse input = .ok (e, last)) :
    ∃ blank c data frame tokens rest, isBlank blank = true ∧ input = blank ++ c :: data ∧
      JsonFrame.opened c = some frame ∧ Reads frame data tokens e rest ∧ last = frame.bracket :: rest := by
  have hopen {c data frame} (ho : JsonFrame.opened c = some frame)
      (h : frame.parse data.length data = .ok (e, last)) :
      ∃ blank c' data' frame tokens rest, isBlank blank = true ∧ c :: data = blank ++ c' :: data' ∧
        JsonFrame.opened c' = some frame ∧ Reads frame data' tokens e rest ∧ last = frame.bracket :: rest := by
    have ⟨_, _, rest, _, hr⟩ := Reads.of_parse h
    cases h.symm.trans <| hr.parse <| Nat.le_refl _
    exact ⟨[], _, _, _, _, _, rfl, rfl, ho, hr, rfl⟩
  induction input
  case nil            => cases h
  case cons c data ih =>
    unfold jsonParse at h
    by_cases ho : c = '{'
    · rw [if_pos ho] at h
      subst ho
      exact hopen JsonFrame.opened_object h
    rw [if_neg ho] at h
    by_cases ha : c = '['
    · rw [if_pos ha] at h
      subst ha
      exact hopen JsonFrame.opened_array h
    rw [if_neg ha] at h
    by_cases hw : isWhitespace c = true
    · rw [if_pos hw] at h
      have ⟨blank, c', data', frame, tokens, rest, hb, hd, hr⟩ := ih h
      exact ⟨c :: blank, c', data', frame, tokens, rest, isBlank_cons hw hb, congrArg _ hd, hr⟩
    · rw [if_neg hw] at h
      cases h

theorem blank_unique {blank₁ blank₂ data₁ data₂ : List Char} {c₁ c₂ : Char}
    (h : blank₁ ++ c₁ :: data₁ = blank₂ ++ c₂ :: data₂) (hb₁ : isBlank blank₁ = true)
    (hb₂ : isBlank blank₂ = true) (hc₁ : isWhitespace c₁ = false) (hc₂ : isWhitespace c₂ = false) :
    c₁ :: data₁ = c₂ :: data₂ := by
  induction blank₁ generalizing blank₂
  case nil          =>
    cases blank₂
    case nil  => exact h
    case cons =>
      cases h
      simp [isBlank, hc₁] at hb₂
  case cons _ _ ih =>
    cases blank₂
    case nil  =>
      cases h
      simp [isBlank, hc₂] at hb₁
    case cons =>
      simp only [List.cons_append, List.cons.injEq] at h
      simp only [isBlank, List.all_cons, Bool.and_eq_true] at hb₁ hb₂
      exact ih h.right hb₁.right hb₂.right

theorem isWhitespace_of_opened (h : JsonFrame.opened c = some frame) : isWhitespace c = false := by
  rcases JsonFrame.opened_eq h with ⟨rfl, _⟩ | ⟨rfl, _⟩ <;> rfl

theorem isContainer_of_yields (h : frame.Yields e) : e.isContainer = true := by
  cases frame
  case array  =>
    have ⟨_, he⟩ := h
    rw [he]
    rfl
  case object =>
    have ⟨_, he⟩ := h
    rw [he]
    rfl

-- A container of the grammar, from its second character on.
theorem IsJson.regular_container {text : List Char} (h : IsJson (.value e) text) (hc : e.isContainer = true) :
    ∃ c frame inner, JsonFrame.opened c = some frame ∧ text = c :: (inner ++ [frame.bracket]) ∧
      ∀ {tail rest tokens}, Reads frame (inner ++ frame.bracket :: tail) tokens e rest →
        rest = tail ∧ Regular (.mark c) tokens := by
  cases h
  case emptyArray hb     => exact ⟨_, _, _, JsonFrame.opened_array, rfl, Reads.of_empty JsonFrame.opened_array rfl hb⟩
  case array hj          =>
    refine ⟨_, _, _, JsonFrame.opened_array, rfl, fun h => ?_⟩
    have ⟨hr, ht⟩ := hj.readsRegularly h
    exact ⟨hr, ht rfl⟩
  case emptyObject hb    => exact ⟨_, _, _, JsonFrame.opened_object, rfl, Reads.of_empty JsonFrame.opened_object rfl hb⟩
  case object hj         =>
    refine ⟨_, _, _, JsonFrame.opened_object, rfl, fun h => ?_⟩
    have ⟨hr, ht⟩ := hj.readsRegularly h
    exact ⟨hr, ht rfl⟩
  case literal hl        => cases hl <;> cases hc
  all_goals cases hc

theorem regular_of_acceptsJson (h : AcceptsJson input) : IsRegularInput input := by
  intro blank data rest c frame tokens e hd hb ho hr
  have hp : jsonParse (blank ++ c :: data) = _ := (jsonParse_blank hb).trans <| hr.jsonParse ho
  rw [← hd] at hp
  have ⟨_, _, _, hlast, htext, blank', container, hb', hcontainer, he, hj⟩ := h _ _ hp
  cases hlast
  have ⟨c', frame', inner, ho', hinner, hregular⟩ := hj.regular_container he
  rw [hd, hcontainer, hinner, List.append_assoc, List.cons_append, List.append_assoc] at htext
  cases blank_unique htext hb hb' (isWhitespace_of_opened ho) (isWhitespace_of_opened ho')
  cases ho.symm.trans ho'
  exact (hregular hr).right

-- What is accepted is JSON if and only if it is read as regular tokens.
theorem acceptsJson_iff : AcceptsJson input ↔ IsRegularInput input := by
  refine ⟨regular_of_acceptsJson, fun h e last hp => ?_⟩
  have ⟨blank, c, data, frame, tokens, rest, hb, hd, ho, hr, hlast⟩ := reads_of_jsonParse hp
  have ⟨text, ht, hc⟩ := hr.completes (h hd hb ho hr) <| JsonFrame.follows_of_opened ho
  have hj := JsonFrame.isJson_of_completes ho hc
  refine ⟨blank ++ c :: (text ++ [frame.bracket]), _, _, hlast, ?_, blank, _, hb, rfl, ?_, hj⟩
  · rw [hd, ht]
    simp
  · exact isContainer_of_yields hr.yields

theorem not_acceptsJson_misread :
    ¬AcceptsJson "[,]".toList ∧ ¬AcceptsJson "[1 2]".toList ∧ ¬AcceptsJson "[abcd,\ntrue]".toList := by
  refine ⟨fun h => ?_, fun h => ?_, fun h => ?_⟩
  · have hr : Reads (.array []) [',', ']'] _ _ [] := .pass rfl <| .close rfl
    have ht := regular_of_acceptsJson h rfl isBlank_nil JsonFrame.opened_array hr
    exact absurd ht.left (by decide)
  · have h₂ : Reads (.array [primitive .integer ['1'], primitive .integer ['2']]) [']'] _ _ [] := .close rfl
    have h₁ : Reads (.array [primitive .integer ['1']]) [' ', '2', ']'] _ _ [] :=
      .blank rfl <| .symbol (rfl : _ = ['2'] ++ _) rfl rfl rfl rfl rfl h₂
    have hr : Reads (.array []) ['1', ' ', '2', ']'] _ _ [] :=
      .symbol (rfl : _ = ['1'] ++ _) rfl rfl rfl rfl rfl h₁
    have ht := regular_of_acceptsJson h rfl isBlank_nil JsonFrame.opened_array hr
    exact absurd ht.right.right.left (by decide)
  · have h₂ : Reads (.array [jsonBoolCreate true, jsonBoolCreate true]) [']'] _ _ [] := .close rfl
    have h₁ : Reads (.array [jsonBoolCreate true]) ",\ntrue]".toList _ _ [] :=
      .pass rfl <| .blank rfl <| .symbol (rfl : _ = "true".toList ++ _) rfl rfl rfl rfl rfl h₂
    have hr : Reads (.array []) "abcd,\ntrue]".toList _ _ [] :=
      .symbol (rfl : _ = "abcd".toList ++ _) rfl rfl rfl rfl rfl h₁
    have ht := regular_of_acceptsJson h rfl isBlank_nil JsonFrame.opened_array hr
    rcases ht.right.left with hl | hn
    · cases hl
    · have hh : ("abcd".toList ++ []).head?.any _ = true := hn.head
      cases hh

end CfEngine
