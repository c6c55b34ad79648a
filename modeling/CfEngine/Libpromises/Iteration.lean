import CfEngine.Library.Odometer
import CfEngine.Libpromises.Rlist

namespace CfEngine

def cfNullValue : CString := ['c', 'f', '_', 'n', 'u', 'l', 'l']

-- An entry of the list of iterators with the list that it goes through. The pointer `state_ptr` is
-- given by the cells of the list from that cell on, where `[]` is the `NULL` pointer.
structure Iterator where
  rval     : List CString
  statePtr : List CString
  deriving DecidableEq

-- The list is padded with null values at both ends. The pointer is set before the value at the end
-- is appended, so that it is `NULL` if the list is empty.
def rlistAppendOrthog (start : List Iterator) (item : List CString) : List Iterator :=
  start ++ [{
    rval     := cfNullValue :: item ++ [cfNullValue]
    statePtr := if item = [] then [] else item ++ [cfNullValue]
  }]

-- The iterators of `NewIterationContext`, which looks up the lists by their names.
def newIterationContext (lists : List (List CString)) : List Iterator :=
  lists.foldl rlistAppendOrthog []

def endOfIteration (iterator : List Iterator) : Bool :=
  iterator.all fun rp => rp.statePtr.length ≤ 1

def nullIterators (iterator : List Iterator) : Bool :=
  iterator.any fun rp => rp.statePtr.head? = some cfNullValue

def incrementIterationContext (iterator : List Iterator) : List Iterator × Bool :=
  match iterator with
  | []          => ([], false)
  | rp :: rest =>
    match rp.statePtr with
    | []     => (rp :: rest, false)
    | [_]    =>
      match incrementIterationContext rest with
      | (rest, true)  => ({ rp with statePtr := rp.rval.tail } :: rest, true)
      | (rest, false) => (rp :: rest, false)
    | _ :: s =>
      let rp := { rp with statePtr := s }
      if nullIterators (rp :: rest) then
        match incrementIterationContext rest with
        | (rest, true)  => ({ rp with statePtr := rp.rval.tail } :: rest, true)
        | (rest, false) =>
          let rp := { rp with statePtr := s.tail }
          (rp :: rest, !endOfIteration (rp :: rest))
      else
        (rp :: rest, !endOfIteration (rp :: rest))

-- One round of a loop `while (IncrementIterationContext(lol))`.
def iterationStep (lol : List Iterator) : Option (List Iterator) :=
  match incrementIterationContext lol with
  | (lol, true) => some lol
  | (_, false)  => none

def items (lol : List Iterator) : List (Option CString) :=
  lol.map (·.statePtr.head?)

-- The positions of the current items in the lists without padding.
def positions (lol : List Iterator) : List Nat :=
  lol.map fun rp => rp.rval.length - 1 - rp.statePtr.length

end CfEngine

open Odometer

namespace CfEngine

-- The cells that a wheel goes through in a revolution from the cell `c` on. Their values are not
-- null. One null value may come after the last one, and between two of them if the wheel is the last
-- wheel.
def Turns (isLast : Prop) : (c : List CString) → List (List CString) → Prop
  | c, []      => ∃ x, x ≠ cfNullValue ∧
    (c = [x, cfNullValue] ∨ c = [x, cfNullValue, cfNullValue])
  | c, d :: ds => (∃ x, x ≠ cfNullValue ∧ (c = x :: d ∨ isLast ∧ c = x :: cfNullValue :: d)) ∧
    Turns isLast d ds

-- The iterators are at the cells of the odometer. A wheel that is turned back finds its first value
-- right after the padding.
def Follows : List Iterator → List (Wheel (List CString)) → Prop
  | [], []              => True
  | rp :: rest, w :: ws =>
    rp.statePtr = w.current ∧ Turns (ws = []) w.current w.rest ∧ Follows rest ws ∧
      (rp.rval.tail = w.first ∧ Turns (ws = []) w.first w.others ∨ next ws = none)
  | _, _                => False

section

variable {p q : Prop} {c : List CString} {ds : List (List CString)}

-- Every cell has a successor, which is the padding at the latest.
theorem Turns.exists_cons (h : Turns p c ds) : ∃ x y s, x ≠ cfNullValue ∧ c = x :: y :: s := by
  induction ds generalizing c
  case nil =>
    have ⟨x, hx, h⟩ := h
    cases h
    case inl h => exact ⟨x, cfNullValue, [], hx, h⟩
    case inr h => exact ⟨x, cfNullValue, [cfNullValue], hx, h⟩
  case cons d ds ih =>
    have ⟨⟨x, hx, h⟩, ht⟩ := h
    cases h
    case inr h => exact ⟨x, cfNullValue, d, hx, h.right⟩
    case inl h =>
      have ⟨y, z, s, _, hd⟩ := ih ht
      exact ⟨x, y, z :: s, hx, hd ▸ h⟩

theorem Turns.imp (h : Turns p c ds) (hi : p → q) : Turns q c ds := by
  induction ds generalizing c
  case nil => exact h
  case cons d ds ih =>
    have ⟨⟨x, hx, h⟩, ht⟩ := h
    exact ⟨⟨x, hx, h.imp_right fun h => ⟨hi h.left, h.right⟩⟩, ih ht⟩

end

section

variable {rp : Iterator} {it it' rest : List Iterator} {ws ws' : List (Wheel (List CString))}

theorem Follows.not_nullIterators (h : Follows it ws) : nullIterators it = false := by
  induction it generalizing ws
  case nil => rfl
  case cons rp rest ih =>
    cases ws
    case nil => exact h.elim
    case cons w ws =>
      have ⟨hc, ht, hf, _⟩ := h
      have ⟨x, y, s, hx, he⟩ := ht.exists_cons
      have hr := ih hf
      simp only [nullIterators, List.any_cons, Bool.or_eq_false_iff, decide_eq_false_iff_not] at hr ⊢
      exact ⟨by simpa [hc, he] using hx, hr⟩

theorem Follows.statePtr_eq (h : Follows it ws) : it.map Iterator.statePtr = Odometer.current ws := by
  induction it generalizing ws
  case nil =>
    cases ws
    case nil  => rfl
    case cons => exact h.elim
  case cons rp rest ih =>
    cases ws
    case nil => exact h.elim
    case cons w ws => simp [Odometer.current, h.left, ih h.right.right.left]

-- A wheel that is not at its end stays within the iteration.
theorem not_endOfIteration_cons (h : 1 < rp.statePtr.length) : endOfIteration (rp :: rest) = false := by
  simp only [endOfIteration, List.all_cons, Bool.and_eq_false_iff, decide_eq_false_iff_not]
  exact .inl <| Nat.not_le_of_lt h

-- The increment of a wheel that reaches a null value and does not get the wheel after it to turn on.
theorem incrementIterationContext_of_null {x y : CString} {s : List CString}
    (hp : rp.statePtr = x :: y :: s) (hn : nullIterators ({ rp with statePtr := y :: s } :: it) = true)
    (hr : incrementIterationContext it = (it', false)) :
    incrementIterationContext (rp :: it) =
      ({ rp with statePtr := s } :: it', !endOfIteration ({ rp with statePtr := s } :: it')) := by
  simp [incrementIterationContext, hp, hn, hr]

theorem incrementIterationContext_of_turn {x y : CString} {s : List CString}
    (hp : rp.statePtr = x :: y :: s) (hn : nullIterators ({ rp with statePtr := y :: s } :: it) = true)
    (hr : incrementIterationContext it = (it', true)) :
    incrementIterationContext (rp :: it) = ({ rp with statePtr := rp.rval.tail } :: it', true) := by
  simp [incrementIterationContext, hp, hn, hr]

theorem incrementIterationContext_of_not_null {x y : CString} {s : List CString}
    (hp : rp.statePtr = x :: y :: s)
    (hn : nullIterators ({ rp with statePtr := y :: s } :: it) = false) :
    incrementIterationContext (rp :: it) =
      ({ rp with statePtr := y :: s } :: it,
        !endOfIteration ({ rp with statePtr := y :: s } :: it)) := by
  simp [incrementIterationContext, hp, hn]

theorem Follows.increment (h : Follows it ws) :
    (next ws = none → ∃ it', incrementIterationContext it = (it', false) ∧ endOfIteration it' = true) ∧
    ∀ ws', next ws = some ws' → ∃ it', incrementIterationContext it = (it', true) ∧ Follows it' ws' := by
  induction it generalizing ws
  case nil =>
    cases ws
    case nil  => exact ⟨fun _ => ⟨[], rfl, rfl⟩, nofun⟩
    case cons => exact h.elim
  case cons rp rest ih =>
    cases ws
    case nil => exact h.elim
    case cons w ws =>
      obtain ⟨hc, ht, hf, hr⟩ := h
      obtain ⟨ih, ih'⟩ := ih hf
      cases hw : w.rest
      case cons d ds =>
        refine ⟨fun hn => by simp [next, hw] at hn, fun ws' hn => ?_⟩
        simp only [next, hw, Option.some.injEq] at hn
        subst hn
        rw [hw] at ht
        obtain ⟨⟨x, _, hd⟩, ht'⟩ := ht
        obtain ⟨y, z, s, hy, hds⟩ := ht'.exists_cons
        have hfol : Follows ({ rp with statePtr := d } :: rest)
            ({ w with current := d, rest := ds } :: ws) :=
          ⟨rfl, ht', hf, hr⟩
        have he : endOfIteration ({ rp with statePtr := d } :: rest) = false :=
          not_endOfIteration_cons (by simp [hds])
        cases hd
        case inl hd =>
          have hp := hc.trans <| hds ▸ hd
          refine ⟨_, ?_, hfol⟩
          rw [incrementIterationContext_of_not_null hp (hds ▸ hfol.not_nullIterators), ←hds, he]
          rfl
        case inr hd =>
          obtain ⟨hws, hd'⟩ := hd
          subst hws
          obtain ⟨it', hi, _⟩ := ih rfl
          cases rest
          case cons => exact hf.elim
          case nil =>
            simp only [incrementIterationContext, Prod.mk.injEq, and_true] at hi
            subst hi
            refine ⟨_, ?_, hfol⟩
            rw [incrementIterationContext_of_null (hc.trans hd') (by simp [nullIterators]) rfl, he]
            rfl
      case nil =>
        rw [hw] at ht
        obtain ⟨x, _, hx⟩ := ht
        obtain ⟨s, hp, hs⟩ : ∃ s, rp.statePtr = x :: cfNullValue :: s ∧ s.length ≤ 1 := by
          cases hx
          case inl hx => exact ⟨[], hc.trans hx, by simp⟩
          case inr hx => exact ⟨[cfNullValue], hc.trans hx, by simp⟩
        have hnull : nullIterators ({ rp with statePtr := cfNullValue :: s } :: rest) = true := by
          simp [nullIterators]
        constructor
        case left =>
          intro hn
          simp only [next, hw, Option.map_eq_none_iff] at hn
          obtain ⟨it', hi, he⟩ := ih hn
          have he' : endOfIteration ({ rp with statePtr := s } :: it') = true := by
            simp only [endOfIteration, List.all_cons, Bool.and_eq_true, decide_eq_true_eq]
            exact ⟨hs, he⟩
          refine ⟨_, (incrementIterationContext_of_null hp hnull hi).trans ?_, he'⟩
          rw [he']
          rfl
        case right =>
          intro ws' hn
          simp only [next, hw, Option.map_eq_some_iff] at hn
          obtain ⟨vs, hv, he⟩ := hn
          subst he
          obtain ⟨it', hi, hf'⟩ := ih' vs hv
          obtain ⟨hfst, htf⟩ := hr.resolve_right (by simp [hv])
          have htf' : Turns (vs = []) w.first w.others := htf.imp fun hws => by
            subst hws
            contradiction
          exact ⟨_, incrementIterationContext_of_turn hp hnull hi, hfst, htf', hf', .inl ⟨hfst, htf'⟩⟩

-- The iteration goes through the combinations of the cells in the order of the odometer, and it ends
-- after the last one.
theorem Follows.exists_visits (h : Follows it ws) :
    ∃ seen : List (List Iterator),
      seen.map (·.map Iterator.statePtr) = Odometer.current ws :: later ws ∧
      ∀ k, seen.length ≤ k → visits iterationStep k it = some seen := by
  have hn (it ws) (h : Follows it ws) (hn : next ws = none) : iterationStep it = none := by
    have ⟨it', hi, _⟩ := h.increment.left hn
    simp [iterationStep, hi]
  have hs (it ws ws') (h : Follows it ws) (hn : next ws = some ws') :
      ∃ it', iterationStep it = some it' ∧ Follows it' ws' := by
    have ⟨it', hi, hf⟩ := h.increment.right ws' hn
    exact ⟨it', by simp [iterationStep, hi], hf⟩
  have ⟨seen, hf, hv⟩ := Odometer.exists_visits hn hs h
  refine ⟨seen, ?_, hv⟩
  have he : List.Forall₂ (fun s t => s.map Iterator.statePtr = t) seen
      (Odometer.current ws :: later ws) :=
    hf.imp fun _ _ ⟨_, h, ht⟩ => h.statePtr_eq.trans ht.symm
  exact List.forall₂_eq_eq_eq ▸ List.forall₂_map_left_iff.mpr he

end

-- The cells of a list that hold a value other than null, where the list is padded at its end.
def cells : List CString → List (List CString)
  | []     => []
  | x :: s => if x = cfNullValue then cells s else (x :: s ++ [cfNullValue]) :: cells s

-- The positions of the values other than null.
def valuePositions (l : List CString) : List Nat :=
  (List.range l.length).filter fun i => l[i]? ≠ some cfNullValue

def cellPosition (l c : List CString) : Nat :=
  l.length + 1 - c.length

section

variable {l s c : List CString} {x : CString} {p : Prop}

theorem suffix_of_mem_cells (h : c ∈ cells l) : c <:+ l ++ [cfNullValue] := by
  induction l
  case nil => simp [cells] at h
  case cons x s ih =>
    simp only [cells] at h
    split at h
    case isTrue  => exact (ih h).trans <| List.suffix_cons x _
    case isFalse =>
      obtain rfl | h := List.mem_cons.mp h
      · exact List.suffix_refl _
      · exact (ih h).trans <| List.suffix_cons x _

theorem length_le_of_mem_cells (h : c ∈ cells l) : c.length ≤ l.length + 1 := by
  simpa using (suffix_of_mem_cells h).length_le

theorem exists_cons_cons_of_mem_cells (h : c ∈ cells l) : ∃ x y s, x ≠ cfNullValue ∧ c = x :: y :: s := by
  induction l
  case nil => simp [cells] at h
  case cons x s ih =>
    simp only [cells] at h
    split at h
    case isTrue     => exact ih h
    case isFalse hx =>
      obtain rfl | h := List.mem_cons.mp h
      · cases s
        case nil       => exact ⟨x, _, _, hx, rfl⟩
        case cons y s => exact ⟨x, _, _, hx, rfl⟩
      · exact ih h

theorem cells_eq_nil_iff : cells l = [] ↔ ∀ x ∈ l, x = cfNullValue := by
  induction l
  case nil         => simp [cells]
  case cons x s ih => by_cases hx : x = cfNullValue <;> simp [cells, hx, ih]

theorem map_cellPosition_cells : (cells l).map (cellPosition l) = valuePositions l := by
  induction l
  case nil => rfl
  case cons x s ih =>
    have hs : (cells s).map (cellPosition (x :: s)) = (valuePositions s).map (· + 1) := by
      rw [←ih, List.map_map]
      apply List.map_congr_left
      intro c hc
      have := length_le_of_mem_cells hc
      simp only [cellPosition, List.length_cons, Function.comp_apply]
      omega
    have hv : ((List.range s.length).map Nat.succ).filter
        (fun i => (x :: s)[i]? ≠ some cfNullValue) = (valuePositions s).map (· + 1) := by
      simp [valuePositions, List.filter_map, Function.comp_def]
    rw [valuePositions, List.length_cons, List.range_succ_eq_map, List.filter_cons, hv, ←hs]
    by_cases hx : x = cfNullValue
    case pos => simp [cells, hx]
    case neg => simp [cells, hx, cellPosition]

theorem map_head?_cells : (cells l).map List.head? = (l.filter (· ≠ cfNullValue)).map some := by
  induction l
  case nil => rfl
  case cons x s ih =>
    by_cases hx : x = cfNullValue
    case pos => simp [cells, hx, ih]
    case neg => simp [cells, hx, ih]

-- A list that holds no null values, except for one at its end.
theorem turns_of_not_mem (hx : x ≠ cfNullValue) (hs : cfNullValue ∉ s) {n : Nat} (hn : n ≤ 1) :
    Turns p (x :: s ++ List.replicate n cfNullValue ++ [cfNullValue])
      (cells (s ++ List.replicate n cfNullValue)) := by
  induction s generalizing x
  case nil =>
    cases n
    case zero   => exact ⟨x, hx, .inl rfl⟩
    case succ n =>
      cases Nat.le_zero.mp <| Nat.le_of_succ_le_succ hn
      have hc : cells [cfNullValue] = [] := by simp [cells]
      exact hc ▸ ⟨x, hx, .inr rfl⟩
  case cons y s ih =>
    have ⟨hy, hs⟩ := not_or.mp <| mt List.mem_cons.mpr hs
    simp only [List.cons_append, cells, Ne.symm hy, ite_false]
    exact ⟨⟨x, hx, .inl rfl⟩, ih (Ne.symm hy) hs⟩

end

section

variable {it : List Iterator} {ws : List (Wheel (List CString))} {lists : List (List CString)}

def pad (l : List CString) : List CString :=
  cfNullValue :: l ++ [cfNullValue]

theorem map_rval_incrementIterationContext (it : List Iterator) :
    (incrementIterationContext it).1.map Iterator.rval = it.map Iterator.rval := by
  induction it
  case nil => rfl
  case cons rp rest ih =>
    simp only [incrementIterationContext]
    split
    case h_1 => rfl
    case h_2 => split <;> simp_all
    case h_3 =>
      split
      case isFalse => rfl
      case isTrue  => split <;> simp_all

theorem newIterationContext_eq_map : newIterationContext lists = lists.map fun l =>
    { rval := pad l, statePtr := if l = [] then [] else l ++ [cfNullValue] } := by
  suffices h : ∀ start, lists.foldl rlistAppendOrthog start = start ++ lists.map fun l =>
      { rval := pad l, statePtr := if l = [] then [] else l ++ [cfNullValue] } from h []
  induction lists
  case nil => simp
  case cons l lists ih => simp [ih, rlistAppendOrthog, pad]

theorem positions_eq_zipWith (h : it.map Iterator.rval = lists.map pad) :
    positions it = List.zipWith cellPosition lists (it.map Iterator.statePtr) := by
  induction it generalizing lists
  case nil => simp [positions]
  case cons rp rest ih =>
    cases lists
    case nil => simp at h
    case cons l lists =>
      have ⟨hr, ht⟩ := List.cons.inj h
      simp only [positions] at ih
      simp [positions, cellPosition, ih ht, hr, pad]

-- An iteration that starts with the first value of each list goes through all combinations of values,
-- each of which it sees once.
theorem Follows.exists_visits_tuples (h : Follows it ws) (hs : ∀ w ∈ ws, w = w.reset)
    (hw : ws.map Wheel.items = lists.map cells) (hr : it.map Iterator.rval = lists.map pad) :
    ∃ seen : List (List Iterator), (∀ k, seen.length ≤ k → visits iterationStep k it = some seen) ∧
      seen.map items = tuples (lists.map fun l => (l.filter (· ≠ cfNullValue)).map some) ∧
      seen.map positions = tuples (lists.map valuePositions) ∧
      ∀ it ∈ seen, ∀ rp ∈ it, ∃ x s, rp.statePtr = x :: s ∧ x ≠ cfNullValue := by
  have ⟨seen, hp, hv⟩ := h.exists_visits
  rw [←tuples_eq_of_start hs, hw] at hp
  refine ⟨seen, hv, ?items, ?positions, ?values⟩
  case values =>
    intro it hit rp hrp
    have hm : it.map Iterator.statePtr ∈ tuples (lists.map cells) := hp ▸ List.mem_map_of_mem hit
    have ⟨_, hl, hc⟩ := exists_mem_of_mem_tuples hm <| List.mem_map_of_mem hrp
    have ⟨l, _, he⟩ := List.mem_map.mp hl
    obtain ⟨x, y, s, hx, hp⟩ := exists_cons_cons_of_mem_cells (he ▸ hc)
    exact ⟨x, y :: s, hp, hx⟩
  case items =>
    have hi : seen.map items = (seen.map (·.map Iterator.statePtr)).map (·.map List.head?) := by
      simp [items, Function.comp_def]
    rw [hi, hp, map_tuples, List.map_map]
    simp only [Function.comp_def, map_head?_cells]
  case positions =>
    have hi := Odometer.visits_invariant (I := fun it => it.map Iterator.rval = lists.map pad)
      (fun it it' he h => ?inv) hr (hv _ <| Nat.le_refl _)
    case inv =>
      simp only [iterationStep] at he
      split at he
      case h_2 => contradiction
      case h_1 it'' hc =>
        cases Option.some.inj he
        have hm := map_rval_incrementIterationContext it
        rw [hc] at hm
        exact hm.trans h
    have hz : seen.map positions =
        (seen.map (·.map Iterator.statePtr)).map (List.zipWith cellPosition lists) := by
      rw [List.map_map]
      exact List.map_congr_left fun it hm => positions_eq_zipWith <| hi it hm
    rw [hz, hp, zipWith_tuples]
    simp only [map_cellPosition_cells]

theorem exists_follows_newIterationContext (h : ∀ l ∈ lists, l ≠ [] ∧ cfNullValue ∉ l) :
    ∃ ws, Follows (newIterationContext lists) ws ∧ (∀ w ∈ ws, w = w.reset) ∧
      ws.map Wheel.items = lists.map cells := by
  rw [newIterationContext_eq_map]
  induction lists
  case nil => exact ⟨[], trivial, nofun, rfl⟩
  case cons l lists ih =>
    have ⟨⟨hl, hn⟩, h⟩ := List.forall_mem_cons.mp h
    have ⟨ws, hf, hs, hi⟩ := ih h
    cases l
    case nil => contradiction
    case cons x s =>
      have ⟨hx, hs'⟩ := not_or.mp <| mt List.mem_cons.mpr hn
      have ht : Turns (ws = []) (x :: s ++ [cfNullValue]) (cells s) := by
        simpa using turns_of_not_mem (Ne.symm hx) hs' (Nat.zero_le 1)
      refine ⟨.start (x :: s ++ [cfNullValue]) (cells s) :: ws, ?follows, ?start, ?items⟩
      case follows => exact ⟨rfl, ht, hf, .inl ⟨rfl, ht⟩⟩
      case start   => exact List.forall_mem_cons.mpr ⟨rfl, hs⟩
      case items   => simp [Wheel.items, Wheel.start, cells, Ne.symm hx, hi]

theorem valuePositions_of_not_mem {l : List CString} (h : cfNullValue ∉ l) :
    valuePositions l = List.range l.length := by
  apply List.filter_eq_self.mpr
  intro i _
  exact decide_eq_true fun hi => h <| List.mem_of_getElem? hi

-- An iteration over lists without null values goes through all combinations of positions in the
-- lists, where the position in the first list changes fastest, and then comes to an end.
theorem visits_newIterationContext (h : ∀ l ∈ lists, l ≠ [] ∧ cfNullValue ∉ l) :
    ∃ seen : List (List Iterator),
      (∀ k, seen.length ≤ k → visits iterationStep k (newIterationContext lists) = some seen) ∧
      seen.map items = tuples (lists.map (·.map some)) ∧
      seen.map positions = tuples (lists.map fun l => List.range l.length) ∧
      (seen.map positions).Nodup ∧
      ∀ p, p ∈ seen.map positions ↔ List.Forall₂ (fun i l => i < l.length) p lists := by
  have ⟨ws, hf, hs, hw⟩ := exists_follows_newIterationContext h
  have hr : (newIterationContext lists).map Iterator.rval = lists.map pad := by
    simp [newIterationContext_eq_map]
  have ⟨seen, hv, hi, hp, _⟩ := hf.exists_visits_tuples hs hw hr
  have hi' : (lists.map fun l => (l.filter (· ≠ cfNullValue)).map some) = lists.map (·.map some) := by
    apply List.map_congr_left
    intro l hl
    have hf : l.filter (· ≠ cfNullValue) = l := List.filter_eq_self.mpr fun x hx =>
      decide_eq_true fun hc => (h l hl).right <| hc ▸ hx
    exact congrArg _ hf
  have hp' : lists.map valuePositions = lists.map fun l => List.range l.length :=
    List.map_congr_left fun l hl => valuePositions_of_not_mem (h l hl).right
  rw [hi'] at hi
  rw [hp'] at hp
  refine ⟨seen, hv, hi, hp, hp ▸ nodup_tuples ?_, fun p => ?_⟩
  · intro l hl
    have ⟨_, _, he⟩ := List.mem_map.mp hl
    exact he ▸ List.nodup_range
  · simp [hp, mem_tuples, List.forall₂_map_right_iff]

theorem visits_newIterationContext_two :
    ∃ seen : List (List Iterator), (∀ k, seen.length ≤ k →
      visits iterationStep k (newIterationContext [[['a'], ['b']], [['c']]]) = some seen) ∧
      seen.map positions = [[0, 0], [1, 0]] := by
  have ⟨seen, hv, _, hp, _⟩ := visits_newIterationContext (h := show ∀ l ∈ [[['a'], ['b']], [['c']]],
    l ≠ [] ∧ cfNullValue ∉ l by decide)
  exact ⟨seen, hv, hp⟩

end
end CfEngine
