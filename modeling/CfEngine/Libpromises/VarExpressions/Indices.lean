import CfEngine.Libpromises.VarExpressions.RoundTrip

namespace CfEngine

open Libutils

-- The assignments to `indices` in the loop over the text after the first `[`, in their order.
def indexWrites (cur_index : Nat) (buf : CString) : CString → List (Nat × CString)
  | []       => []
  | '[' :: s => indexWrites (cur_index + 1) buf s
  | ']' :: s => (cur_index, buf) :: indexWrites cur_index [] s
  | c :: s   => indexWrites cur_index (bufferAppended buf [c]) s

-- The text from the first `[` on, which is empty where there is none.
def bracketText (qualified_name : CString) : CString :=
  match strchr qualified_name '[' with
  | some (_, rest) => '[' :: rest
  | none           => []

-- The check of `IndexBracketsBalance`, which is made with the first `[` only.
def indexBracketsBalance (var_string : CString) : Bool :=
  var_string.count '[' = var_string.count ']'

def writtenIndices (qualified_name : CString) : List Nat :=
  match strchr qualified_name '[' with
  | some (_, rest) => (indexWrites 0 [] rest).map Prod.fst
  | none           => []

-- Each index is written once, and nothing else is.
def WritesIndicesOnce (qualified_name : CString) : Prop :=
  ∀ i, (writtenIndices qualified_name).count i = if i < indexCount (bracketText qualified_name) then 1 else 0

def isBracket (c : Char) : Bool :=
  c = '[' ∨ c = ']'

-- No index holds a bracket, and each is closed.
def BracketsAlternate (var_string : CString) : Prop :=
  (var_string.filter isBracket).IsChain (· ≠ ·)

variable {s buf : CString} {cur : Nat} {slots : List (Option CString)}

theorem parseIndices_eq :
    parseIndices cur buf slots s = (indexWrites cur buf s).foldl (fun slots w => slots.set w.1 <| some w.2) slots := by
  fun_induction parseIndices cur buf slots s
  case case1 => rfl
  case case2 ih => rw [indexWrites, ih]
  case case3 ih => rw [indexWrites, ih, List.foldl_cons]
  case case4 ho hc ih => rw [indexWrites, ih] <;> assumption

-- The index that is current at each closing bracket.
def closings (cur : Nat) : CString → List Nat
  | []       => []
  | '[' :: s => closings (cur + 1) s
  | ']' :: s => cur :: closings cur s
  | _ :: s   => closings cur s

theorem map_fst_indexWrites : (indexWrites cur buf s).map Prod.fst = closings cur s := by
  fun_induction indexWrites cur buf s
  case case1          => rfl
  case case2 ih       => rw [closings, ih]
  case case3 ih       => rw [List.map_cons, closings, ih]
  case case4 ho hc ih => rw [closings, ih] <;> assumption

theorem closings_filter : closings cur (s.filter isBracket) = closings cur s := by
  fun_induction closings cur s
  case case1          => rfl
  case case2 ih       => rw [List.filter_cons_of_pos (by decide), closings, ih]
  case case3 ih       => rw [List.filter_cons_of_pos (by decide), closings, ih]
  case case4 ho hc ih => rw [List.filter_cons_of_neg (by simpa [isBracket] using ⟨ho, hc⟩), ih]

theorem count_filter_bracket {c : Char} (h : isBracket c) : (s.filter isBracket).count c = s.count c :=
  List.count_filter h

theorem le_of_mem_closings {i : Nat} (h : i ∈ closings cur s) : cur ≤ i := by
  fun_induction closings cur s
  case case1    => nomatch h
  case case2 ih => exact Nat.le_of_succ_le <| ih h
  case case3 ih =>
    cases List.mem_cons.mp h
    case inl he => exact Nat.le_of_eq he.symm
    case inr h  => exact ih h
  case case4 ih => exact ih h

theorem count_closings_of_lt {i : Nat} (h : i < cur) : (closings cur s).count i = 0 :=
  List.count_eq_zero_of_not_mem fun hi => Nat.not_lt.mpr (le_of_mem_closings hi) h

theorem eq_bracket {c : Char} (h : isBracket c) : c = '[' ∨ c = ']' := by
  simpa [isBracket] using h

-- The brackets behind the first one are taken in pairs of a closing and an opening one.
theorem closings_once_iff (cur : Nat) : ∀ b : CString, (∀ c ∈ b, isBracket c) → b.count ']' = b.count '[' + 1 →
    ((∀ i, (closings cur b).count i = if cur ≤ i ∧ i < cur + (b.count '[' + 1) then 1 else 0) ↔
      ('[' :: b).IsChain (· ≠ ·))
  | [], _, hn => nomatch hn
  | [c], hb, hn => by
    cases eq_bracket (hb c List.mem_cons_self)
    case inl he => simp [he] at hn
    case inr he =>
      subst he
      refine iff_of_true (fun i => ?_) (by simp)
      rw [closings, closings, List.count_singleton]
      simp only [beq_iff_eq, List.count_cons_of_ne (show ']' ≠ '[' by decide), List.count_nil]
      split <;> split <;> omega
  | c :: d :: b, hb, hn => by
    cases eq_bracket (hb c List.mem_cons_self)
    case inl he =>
      subst he
      refine iff_of_false (fun h => ?_) (by simp)
      have hc := h cur
      rw [closings, count_closings_of_lt (Nat.lt_succ_self _), if_pos ⟨Nat.le_refl _, by omega⟩] at hc
      nomatch hc
    case inr he =>
      subst he
      have hrest : ∀ c ∈ b, isBracket c := fun c hc => hb c <| List.mem_cons_of_mem _ <| List.mem_cons_of_mem _ hc
      cases eq_bracket (hb d <| List.mem_cons_of_mem _ List.mem_cons_self)
      case inr he =>
        subst he
        refine iff_of_false (fun h => ?_) (by simp)
        have hc := h cur
        rw [closings, closings, List.count_cons_self, List.count_cons_self] at hc
        split at hc <;> omega
      case inl he =>
        subst he
        rw [List.count_cons_self, List.count_cons_of_ne (by decide), List.count_cons_of_ne (by decide),
          List.count_cons_self] at hn
        rw [List.count_cons_of_ne (by decide), List.count_cons_self]
        have ih := closings_once_iff (cur + 1) b hrest (by omega)
        have hchain : ('[' :: ']' :: '[' :: b).IsChain (· ≠ ·) ↔ ('[' :: b).IsChain (· ≠ ·) := by simp
        rw [hchain, ← ih, closings, closings]
        refine forall_congr' fun i => ?_
        by_cases hi : i = cur
        case pos =>
          rw [hi, List.count_cons_self, count_closings_of_lt (Nat.lt_succ_self _)]
          simp
        case neg =>
          rw [List.count_cons_of_ne (Ne.symm hi)]
          have hcond : cur ≤ i ∧ i < cur + (b.count '[' + 1 + 1) ↔ cur + 1 ≤ i ∧ i < cur + 1 + (b.count '[' + 1) := by
            omega
          simp only [hcond]

theorem writesIndicesOnce_iff_alternate {qualified_name : CString}
    (h : indexBracketsBalance (bracketText qualified_name)) :
    WritesIndicesOnce qualified_name ↔ BracketsAlternate (bracketText qualified_name) := by
  rw [indexBracketsBalance, decide_eq_true_iff] at h
  rw [WritesIndicesOnce, BracketsAlternate]
  cases hs : strchr qualified_name '['
  case none   => simp [writtenIndices, bracketText, hs, indexCount]
  case some p =>
    obtain ⟨name, rest⟩ := p
    simp only [writtenIndices, bracketText, hs] at h ⊢
    rw [List.count_cons_self, List.count_cons_of_ne (by decide)] at h
    rw [List.filter_cons_of_pos (by decide), map_fst_indexWrites, ← closings_filter, indexCount, List.count_cons_self]
    have hcount {c : Char} (hc : isBracket c) := @count_filter_bracket rest c hc
    rw [← closings_once_iff 0 _ (fun c hc => (List.mem_filter.mp hc).right)
      (by rw [hcount (by decide), hcount (by decide), h]), hcount (by decide)]
    simp

def IsAssigned (slots : List (Option CString)) (i : Nat) : Prop :=
  ∃ index, slots[i]? = some (some index)

-- A slot that has been written to stays assigned.
theorem isAssigned_foldl_set {writes : List (Nat × CString)} {i : Nat} (hl : i < slots.length)
    (h : IsAssigned slots i ∨ i ∈ writes.map Prod.fst) :
    IsAssigned (writes.foldl (fun slots w => slots.set w.1 <| some w.2) slots) i := by
  induction writes generalizing slots
  case nil => exact h.resolve_right List.not_mem_nil
  case cons w writes ih =>
    have hset : i < (slots.set w.1 <| some w.2).length := by rwa [List.length_set]
    apply ih hset
    by_cases hi : w.1 = i
    case pos => exact .inl ⟨w.2, by rw [hi, List.getElem?_set_self hl]⟩
    case neg =>
      rw [IsAssigned, List.getElem?_set_ne hi]
      exact h.imp id fun hm => (List.mem_cons.mp hm).resolve_left (Ne.symm hi)

theorem isSome_mapM_id (h : ∀ i < slots.length, IsAssigned slots i) : (slots.mapM id).isSome := by
  have hslots : slots = (slots.map (·.getD [])).map some := by
    rw [List.map_map]
    refine List.ext_getElem (by simp) fun i hi _ => ?_
    have ⟨index, hs⟩ := h i hi
    rw [List.getElem?_eq_getElem hi] at hs
    simp [Option.some.inj hs]
  rw [mapM_id_eq_some_iff.mpr hslots, Option.isSome_some]

theorem WritesIndicesOnce.isSome_parse {qualified_name : CString} (h : WritesIndicesOnce qualified_name)
    (ns scope : Option CString) (s₁ s₂ : Char) :
    (varRefParseFromNamespaceAndScope qualified_name ns scope s₁ s₂).isSome := by
  rw [varRefParse_eq]
  rw [WritesIndicesOnce] at h
  cases hs : strchr qualified_name '['
  case none   => rfl
  case some p =>
    obtain ⟨name, rest⟩ := p
    simp only [writtenIndices, bracketText, hs] at h ⊢
    have hsome := @isSome_mapM_id (parseIndices 0 [] (List.replicate (indexCount ('[' :: rest)) none) rest) fun i hi => by
      rw [length_parseIndices] at hi
      rw [parseIndices_eq]
      refine isAssigned_foldl_set hi <| .inr ?_
      rw [List.length_replicate] at hi
      have hc := h i
      rw [if_pos hi] at hc
      exact List.count_pos_iff.mp (hc ▸ Nat.one_pos)
    obtain ⟨indices, hindices⟩ := Option.isSome_iff_exists.mp hsome
    rw [hindices]
    rfl

-- The indices are written as they should be when their brackets alternate, and the balance is not enough.
theorem writesIndicesOnce_iff (qualified_name : CString) (h : indexBracketsBalance (bracketText qualified_name)) :
    (WritesIndicesOnce qualified_name ↔ BracketsAlternate (bracketText qualified_name)) ∧
      (WritesIndicesOnce qualified_name → ∀ ns scope s₁ s₂,
        (varRefParseFromNamespaceAndScope qualified_name ns scope s₁ s₂).isSome) :=
  ⟨writesIndicesOnce_iff_alternate h, fun h => h.isSome_parse⟩

theorem writesIndicesOnce_levels : WritesIndicesOnce ['l', '[', 'x', ']', '[', ']'] ∧ ∀ ns scope s₁ s₂,
    (varRefParseFromNamespaceAndScope ['l', '[', 'x', ']', '[', ']'] ns scope s₁ s₂).isSome := by
  have hlevels := writesIndicesOnce_iff ['l', '[', 'x', ']', '[', ']'] (by decide)
  have hwrites := hlevels.left.mpr <| by
    unfold BracketsAlternate
    decide
  exact ⟨hwrites, hlevels.right hwrites⟩

-- The index of an index is written twice, and the outer one is not.
theorem not_writesIndicesOnce :
    indexBracketsBalance (bracketText ['a', '[', 'b', '[', 'c', ']', ']']) ∧
      ¬WritesIndicesOnce ['a', '[', 'b', '[', 'c', ']', ']'] ∧
      varRefParse ['a', '[', 'b', '[', 'c', ']', ']'] = none := by
  refine ⟨by decide, fun h => ?_, by decide⟩
  have hc : (writtenIndices ['a', '[', 'b', '[', 'c', ']', ']']).count 0 = 0 := by decide
  exact absurd (hc.symm.trans <| h 0) (by decide)

end CfEngine
