import CfEngine.Library.Outcome
import CfEngine.Libpromises.Policy.Json

namespace CfEngine
namespace Policy

-- A string that fits into the buffer of an attribute without a change.
def Plain (s : CString) : Prop :=
  s.length < cfBufSize / 2 - 2 ∧ '\'' ∉ s ∧ '"' ∉ s

-- A string without a character that is escaped.
def Unescaped (s : CString) : Prop :=
  ∀ c ∈ s, escapeJsonChar c = [c]

instance (s : CString) : Decidable (Plain s) :=
  inferInstanceAs (Decidable (_ ∧ _ ∧ _))

instance (s : CString) : Decidable (Unescaped s) :=
  List.decidableBAll _ s

theorem escapeQuotesFrom_eq_self {outSz i : Nat} {s : CString} (hq : '\'' ∉ s ∧ '"' ∉ s)
    (hl : i + 2 * s.length < outSz - 1) : escapeQuotesFrom outSz i s = s := by
  induction s generalizing i
  case nil => rfl
  case cons c s ih =>
    simp only [List.mem_cons, not_or] at hq
    have hc : ¬(c = '\'' ∨ c = '"') := by
      rintro (h | h)
      · exact hq.1.1 h.symm
      · exact hq.2.1 h.symm
    rw [List.length_cons] at hl
    rw [escapeQuotesFrom, if_pos (by omega), if_neg hc, ih ⟨hq.1.2, hq.2.2⟩ (by omega)]

theorem Plain.escapeQuotes_eq_self {s : CString} (h : Plain s) : escapeQuotes s cfBufSize = s := by
  have hl := h.1
  simp only [cfBufSize] at hl
  exact escapeQuotesFrom_eq_self h.2 <| by simp only [cfBufSize]; omega

theorem length_escapeJsonChar (c : Char) :
    1 ≤ (escapeJsonChar c).length ∧ ((escapeJsonChar c).length = 1 → escapeJsonChar c = [c]) := by
  simp only [escapeJsonChar]
  repeat' split
  all_goals simp

theorem length_le_length_escapeJsonString (s : CString) :
    s.length ≤ (escapeJsonString s).length := by
  induction s
  case nil          => exact Nat.zero_le _
  case cons c s ih =>
    have := (length_escapeJsonChar c).1
    simp only [escapeJsonString, List.flatMap_cons, List.length_cons, List.length_append] at ih ⊢
    omega

theorem escapeJsonString_eq_self_iff {s : CString} : escapeJsonString s = s ↔ Unescaped s := by
  induction s
  case nil         => simp [escapeJsonString, Unescaped]
  case cons c s ih =>
    have hc := length_escapeJsonChar c
    simp only [Unescaped, List.forall_mem_cons] at ih ⊢
    rw [← ih]
    simp only [escapeJsonString, List.flatMap_cons]
    constructor
    case mp =>
      intro h
      have hs := length_le_length_escapeJsonString s
      have hl := congrArg List.length h
      simp only [escapeJsonString, List.length_append, List.length_cons] at hs hl
      have h1 := hc.2 <| by omega
      rw [h1] at h
      exact ⟨h1, List.cons_injective.eq_iff.mp h⟩
    case mpr =>
      rintro ⟨h1, h2⟩
      rw [h1, h2]
      rfl

-- A backslash comes first exactly if the character is escaped, and the letter after it tells which
-- character that is.
def unescapeJsonLetter (letter : Char) : Char :=
  if letter = 'b' then '\x08'
  else if letter = 'f' then '\x0c'
  else if letter = 'n' then '\n'
  else if letter = 'r' then '\r'
  else if letter = 't' then '\t'
  else letter

theorem escapeJsonChar_cases (c : Char) :
    (escapeJsonChar c = [c] ∧ c ≠ '\\') ∨
      ∃ letter, escapeJsonChar c = ['\\', letter] ∧ unescapeJsonLetter letter = c := by
  simp only [escapeJsonChar]
  split
  case isTrue h =>
    refine .inr ⟨c, rfl, ?_⟩
    rcases h with rfl | rfl <;> rfl
  case isFalse h =>
    repeat' split
    case isFalse => exact .inl ⟨rfl, (h <| .inr ·)⟩
    all_goals exact .inr ⟨_, rfl, Eq.symm ‹_›⟩

theorem escapeJsonChar_append_inj {c d : Char} {s t : CString}
    (h : escapeJsonChar c ++ s = escapeJsonChar d ++ t) : c = d ∧ s = t := by
  rcases escapeJsonChar_cases c with ⟨hc, hc'⟩ | ⟨a, hc, ha⟩ <;>
  rcases escapeJsonChar_cases d with ⟨hd, hd'⟩ | ⟨b, hd, hb⟩ <;>
  rw [hc, hd] at h <;>
  simp only [List.cons_append, List.nil_append, List.cons.injEq] at h
  · exact h
  · exact absurd h.1 hc'
  · exact absurd h.1.symm hd'
  · exact ⟨ha ▸ hb ▸ congrArg _ h.2.1, h.2.2⟩

theorem escapeJsonString_injective : Function.Injective escapeJsonString := by
  intro s
  induction s
  case nil =>
    intro t h
    have := length_le_length_escapeJsonString t
    rw [← h] at this
    exact (List.eq_nil_of_length_eq_zero <| Nat.le_zero.mp this).symm
  case cons c s ih =>
    intro t h
    rcases t with _ | ⟨d, t⟩
    · have := length_le_length_escapeJsonString (c :: s)
      rw [h] at this
      exact absurd this <| Nat.not_succ_le_zero _
    · have ⟨hc, hs⟩ := escapeJsonChar_append_inj h
      rw [hc, ih hs]

namespace Rval

def isScalar : Rval → Bool
  | scalar _ => true
  | _        => false

mutual

-- An item of a list or an argument of a call: a string, or a call.
def isItem : Rval → Bool
  | scalar _      => true
  | fnCall _ args => areItems args
  | list _        => false
  | nopromisee    => false

def areItems : List Rval → Bool
  | []      => true
  | r :: rs => isItem r && areItems rs

end

-- The values that can be written: an item, or a list of items.
def isValue : Rval → Bool
  | list items => areItems items
  | r          => isItem r

mutual

def strings : Rval → List CString
  | scalar item      => [item]
  | list items       => stringsAll items
  | fnCall name args => name :: stringsAll args
  | nopromisee       => []

def stringsAll : List Rval → List CString
  | []      => []
  | r :: rs => strings r ++ stringsAll rs

end

mutual

-- What is read back where a value has been exported.
def reread : Rval → Rval
  | scalar item      => scalar <| escapeJsonString item
  | list items       => list <| rereadAll [] items
  | fnCall name args => fnCall (escapeJsonString name) (rereadAll [] args)
  | nopromisee       => nopromisee

def rereadAll (start : List Rval) : List Rval → List Rval
  | []      => start
  | r :: rs => rereadAll (rlistAppend start <| reread r) rs

end

theorem areItems_append {rs rs' : List Rval} : areItems (rs ++ rs') = (areItems rs && areItems rs') := by
  induction rs <;> simp_all [areItems, Bool.and_assoc]

theorem rlistAppend_of_isItem {r : Rval} (start : List Rval) (h : isItem r) :
    rlistAppend start r = start ++ [r] := by
  cases r <;> simp_all [isItem, rlistAppend]

theorem rlistAppendAll_of_areItems {rs : List Rval} (start : List Rval) (h : areItems rs) :
    rlistAppendAll start rs = start ++ rs := by
  induction rs generalizing start <;> simp_all [areItems, rlistAppendAll, rlistAppend_of_isItem]

mutual

-- What is read back holds no list in a list.
theorem isValue_reread : (r : Rval) → r ≠ nopromisee → isValue r.reread
  | scalar _,    _ => rfl
  | list items,  _ => areItems_rereadAll items rfl
  | fnCall _ args, _ => areItems_rereadAll args rfl
  | nopromisee,  h => absurd rfl h

theorem areItems_rereadAll {start : List Rval} :
    (rs : List Rval) → areItems start → areItems (rereadAll start rs)
  | [], h      => h
  | r :: rs, h => by
    rw [rereadAll]
    refine areItems_rereadAll rs ?_
    by_cases hr : r = nopromisee
    case pos => rwa [hr, reread, rlistAppend]
    case neg =>
      have hv := isValue_reread r hr
      generalize reread r = r' at hv
      rcases r' with item | items | ⟨name, args⟩ | -
      · simp [rlistAppend, areItems_append, h, areItems, isItem]
      · rw [rlistAppend, rlistAppendAll_of_areItems _ hv, areItems_append, h]
        exact hv
      · rw [rlistAppend, areItems_append, h, areItems, areItems, Bool.and_true]
        exact hv
      · exact absurd hv Bool.false_ne_true

end

theorem isItem_reread {r : Rval} (h : isItem r) : isItem r.reread := by
  rcases r with item | items | ⟨name, args⟩ | -
  · rfl
  · exact absurd h Bool.false_ne_true
  · exact areItems_rereadAll args rfl
  · exact absurd h Bool.false_ne_true

theorem rereadAll_of_areItems {rs : List Rval} {start : List Rval} (h : areItems rs) :
    rereadAll start rs = start ++ rs.map reread := by
  induction rs generalizing start
  case nil          => simp [rereadAll]
  case cons r rs ih =>
    simp only [areItems, Bool.and_eq_true] at h
    rw [rereadAll, rlistAppend_of_isItem _ <| isItem_reread h.1, ih h.2]
    simp

mutual

theorem reread_eq_self_of_isItem : (r : Rval) → isItem r →
    (r.reread = r ↔ ∀ s ∈ r.strings, Unescaped s)
  | scalar item, _ => by simp [reread, strings, escapeJsonString_eq_self_iff]
  | fnCall name args, h => by
    rw [reread, rereadAll_of_areItems h, fnCall.injEq, List.nil_append, strings,
      List.forall_mem_cons, escapeJsonString_eq_self_iff, map_reread_eq_self_of_areItems args h]

theorem map_reread_eq_self_of_areItems : (rs : List Rval) → areItems rs →
    (rs.map reread = rs ↔ ∀ s ∈ stringsAll rs, Unescaped s)
  | [], _      => by simp [stringsAll]
  | r :: rs, h => by
    simp only [areItems, Bool.and_eq_true] at h
    rw [List.map_cons, List.cons.injEq, reread_eq_self_of_isItem r h.1,
      map_reread_eq_self_of_areItems rs h.2, stringsAll, List.forall_mem_append]

end

theorem reread_eq_self_iff {r : Rval} (h : r ≠ nopromisee) :
    r.reread = r ↔ isValue r ∧ ∀ s ∈ r.strings, Unescaped s := by
  constructor
  case mp =>
    intro hr
    have hv : isValue r := hr ▸ isValue_reread r h
    refine ⟨hv, ?_⟩
    rcases r with item | items | ⟨name, args⟩ | -
    · exact (reread_eq_self_of_isItem _ hv).mp hr
    · rw [reread, rereadAll_of_areItems hv, list.injEq] at hr
      exact (map_reread_eq_self_of_areItems items hv).mp hr
    · exact (reread_eq_self_of_isItem _ hv).mp hr
    · exact absurd rfl h
  case mpr =>
    rintro ⟨hv, hs⟩
    rcases r with item | items | ⟨name, args⟩ | -
    · exact (reread_eq_self_of_isItem _ hv).mpr hs
    · rw [reread, rereadAll_of_areItems hv, list.injEq]
      exact (map_reread_eq_self_of_areItems items hv).mpr hs
    · exact (reread_eq_self_of_isItem _ hv).mpr hs
    · exact absurd rfl h

end Rval

mutual

theorem attributeValueToJson_isOk_of_isItem : (r : Rval) → (symbolicReference : Bool) → r.isItem →
    ∃ json, attributeValueToJson r symbolicReference = .ok json
  | .scalar _, _, _         => ⟨_, rfl⟩
  | .fnCall name args, _, h => by
    obtain ⟨jsons, hjsons⟩ := attributeValuesToJson_isOk args h
    exact ⟨_, by rw [attributeValueToJson, hjsons]; rfl⟩

theorem attributeValuesToJson_isOk : (rs : List Rval) → Rval.areItems rs →
    ∃ jsons, attributeValuesToJson rs = .ok jsons
  | [], _      => ⟨[], rfl⟩
  | r :: rs, h => by
    simp only [Rval.areItems, Bool.and_eq_true] at h
    obtain ⟨json, hjson⟩ := attributeValueToJson_isOk_of_isItem r false h.1
    obtain ⟨jsons, hjsons⟩ := attributeValuesToJson_isOk rs h.2
    exact ⟨json :: jsons, by rw [attributeValuesToJson, hjson, hjsons]; rfl⟩

end

theorem attributeValueToJson_isOk {r : Rval} (symbolicReference : Bool) (h : r.isValue) :
    ∃ json, attributeValueToJson r symbolicReference = .ok json := by
  rcases r with item | items | ⟨name, args⟩ | -
  · exact attributeValueToJson_isOk_of_isItem _ _ h
  · obtain ⟨jsons, hjsons⟩ := attributeValuesToJson_isOk items h
    exact ⟨_, by rw [attributeValueToJson, hjsons]; rfl⟩
  · exact attributeValueToJson_isOk_of_isItem _ _ h
  · exact absurd h Bool.false_ne_true

-- The name of the type of a value.
def rvalTypeName (symbolicReference : Bool) : Rval → CString
  | .scalar _   => if symbolicReference then "symbol".toList else "string".toList
  | .list _     => "list".toList
  | .fnCall ..  => "functionCall".toList
  | .nopromisee => []

mutual

theorem rvalFromJson_attributeValueToJson : (r : Rval) → {symbolicReference : Bool} →
    {json : JsonElement} → attributeValueToJson r symbolicReference = .ok json →
    (∀ s ∈ r.strings, Plain s) →
    (∃ children, json = .object children) ∧
      json.getString "type" = some (rvalTypeName symbolicReference r) ∧
      rvalFromJson json = some r.reread
  | .scalar item, symbolicReference, json, h, hs => by
    cases h
    have hp := (hs item <| List.mem_singleton_self item).escapeQuotes_eq_self
    rw [hp]
    cases symbolicReference <;> exact ⟨⟨_, rfl⟩, rfl, rfl⟩
  | .list items, symbolicReference, json, h, hs => by
    obtain ⟨jsons, hjsons, h⟩ := Except.bind_eq_ok_iff.mp h
    cases h
    have hitems := rvalsFromJson_attributeValuesToJson items [] hjsons hs
    refine ⟨⟨_, rfl⟩, rfl, ?_⟩
    change (rvalsFromJson [] jsons >>= fun items => some (Rval.list items)) = _
    rw [hitems]
    rfl
  | .fnCall name args, symbolicReference, json, h, hs => by
    obtain ⟨jsons, hjsons, h⟩ := Except.bind_eq_ok_iff.mp h
    cases h
    have hargs := rvalsFromJson_attributeValuesToJson args [] hjsons
      (List.forall_mem_cons.mp hs).2
    refine ⟨⟨_, rfl⟩, rfl, ?_⟩
    change (rvalsFromJson [] jsons >>= fun args => some (Rval.fnCall (escapeJsonString name) args)) = _
    rw [hargs]
    rfl

theorem rvalsFromJson_attributeValuesToJson : (rs start : List Rval) →
    {jsons : List JsonElement} → attributeValuesToJson rs = .ok jsons →
    (∀ s ∈ Rval.stringsAll rs, Plain s) →
    rvalsFromJson start jsons = some (Rval.rereadAll start rs)
  | [], _, _, h, _ => by
    cases h
    rfl
  | r :: rs, start, jsons, h, hs => by
    obtain ⟨json, hjson, h⟩ := Except.bind_eq_ok_iff.mp h
    obtain ⟨jsons, hjsons, h⟩ := Except.bind_eq_ok_iff.mp h
    cases h
    rw [Rval.stringsAll, List.forall_mem_append] at hs
    obtain ⟨-, -, hr⟩ := rvalFromJson_attributeValueToJson r hjson hs.1
    rw [rvalsFromJson, hr]
    exact rvalsFromJson_attributeValuesToJson rs _ hjsons hs.2

end

end Policy
end CfEngine
