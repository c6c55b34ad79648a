import Mathlib.Logic.Relation
import CfEngine.Libpromises.Expand.PromiseAndDo

open Odometer
open Relation (ReflTransGen)

namespace CfEngine

-- The iterator goes through the list.
structure Iterator.StandsOn (rp : Iterator) (l : List CString) : Prop where
  rval     : rp.rval = pad l
  statePtr : rp.statePtr <:+ l ++ [cfNullValue]

section

variable {rp : Iterator} {it it' rest : List Iterator} {l : List CString} {lists : List (List CString)} {b : Bool}

theorem Iterator.StandsOn.tail {x : CString} {s : List CString} (h : rp.StandsOn l) (hp : rp.statePtr = x :: s) :
    { rp with statePtr := s }.StandsOn l ∧ { rp with statePtr := s.tail }.StandsOn l := by
  have hs := (List.suffix_cons x s).trans <| hp ▸ h.statePtr
  exact ⟨⟨h.rval, hs⟩, h.rval, (List.tail_suffix s).trans hs⟩

theorem Iterator.StandsOn.turn (h : rp.StandsOn l) : { rp with statePtr := rp.rval.tail }.StandsOn l :=
  ⟨h.rval, by simp [h.rval, pad]⟩

theorem Iterator.StandsOn.length_le (h : rp.StandsOn l) : rp.statePtr.length ≤ rp.rval.length - 1 := by
  simpa [h.rval, pad] using h.statePtr.length_le

theorem standsOn_newIterationContext : List.Forall₂ Iterator.StandsOn (newIterationContext lists) lists := by
  rw [newIterationContext_eq_map, List.forall₂_map_left_iff, List.forall₂_same]
  refine fun l _ => ⟨rfl, ?_⟩
  dsimp only
  split
  case isTrue  => exact List.nil_suffix
  case isFalse => exact List.suffix_refl _

theorem positions_cons : positions (rp :: it) = (rp.rval.length - 1 - rp.statePtr.length) :: positions it :=
  rfl

-- An increment goes on in the order of the positions, or leaves them as they are.
theorem increment_before (h : List.Forall₂ Iterator.StandsOn it lists)
    (hi : incrementIterationContext it = (it', b)) :
    List.Forall₂ Iterator.StandsOn it' lists ∧
      (positions it' = positions it ∧ b = false ∨ Before (· < ·) (positions it) (positions it')) := by
  induction h generalizing it' b
  case nil =>
    cases hi
    exact ⟨.nil, .inl ⟨rfl, rfl⟩⟩
  case cons rp l rest ls hrp hrest ih =>
    rw [incrementIterationContext] at hi
    cases hr : incrementIterationContext rest
    case mk rest' b' =>
    obtain ⟨hstands, hmoves⟩ := ih hr
    have hturned (hb : b' = true) : Before (· < ·) (positions rest) (positions rest') :=
      hmoves.resolve_left fun he => absurd (hb.symm.trans he.right) (by decide)
    simp only [hr] at hi
    split at hi
    case h_1      =>
      cases hi
      exact ⟨.cons hrp hrest, .inl ⟨rfl, rfl⟩⟩
    case h_2      =>
      cases b' <;> cases hi
      case true  => exact ⟨.cons hrp.turn hstands, .inr <| .inl <| hturned rfl⟩
      case false =>
        refine ⟨.cons hrp hstands, hmoves.imp (fun he => ⟨?_, rfl⟩) .inl⟩
        rw [positions_cons, he.left, positions_cons]
    case h_3 x s hn hp =>
      obtain ⟨hs, hs'⟩ := hrp.tail hp
      have hlen := hrp.length_le
      rw [hp, List.length_cons] at hlen
      have hlt {t : List CString} (ht : t.length ≤ s.length) :
          rp.rval.length - 1 - rp.statePtr.length < rp.rval.length - 1 - t.length := by
        rw [hp, List.length_cons]
        omega
      split at hi
      case isFalse =>
        cases hi
        exact ⟨.cons hs hrest, .inr <| .inr ⟨rfl, hlt <| Nat.le_refl _⟩⟩
      case isTrue  =>
        cases b' <;> cases hi
        case true  => exact ⟨.cons hrp.turn hstands, .inr <| .inl <| hturned rfl⟩
        case false =>
          refine ⟨.cons hs' hstands, .inr <| hmoves.elim (fun he => .inr ⟨he.left.symm, hlt ?_⟩) .inl⟩
          simp

theorem standsOn_skipNullIterators {rounds : Nat} (h : List.Forall₂ Iterator.StandsOn it lists) :
    List.Forall₂ Iterator.StandsOn (skipNullIterators rounds it) lists := by
  induction rounds generalizing it
  case zero           => exact h
  case succ rounds ih =>
    rw [skipNullIterators]
    split
    case isTrue  => exact ih (increment_before h rfl).left
    case isFalse => exact h

theorem standsOn_iterationStep (hs : iterationStep it = some it') (h : List.Forall₂ Iterator.StandsOn it lists) :
    List.Forall₂ Iterator.StandsOn it' lists ∧ Before (· < ·) (positions it) (positions it') := by
  simp only [iterationStep] at hs
  split at hs
  case h_1 hi =>
    cases hs
    exact (increment_before h hi).imp_right fun hm => hm.resolve_left fun he => absurd he.right (by decide)
  case h_2    => cases hs

-- The cells of a list from a position on.
def cellsFrom (l : List CString) (position : Nat) : List CString :=
  (l ++ [cfNullValue]).drop position

theorem Iterator.StandsOn.cellsFrom_eq (h : rp.StandsOn l) :
    cellsFrom l (rp.rval.length - 1 - rp.statePtr.length) = rp.statePtr := by
  have hlen : rp.rval.length - 1 = (l ++ [cfNullValue]).length := by simp [h.rval, pad]
  rw [hlen, cellsFrom]
  exact (List.suffix_iff_eq_drop.mp h.statePtr).symm

theorem zipWith_cellsFrom_positions (h : List.Forall₂ Iterator.StandsOn it lists) :
    List.zipWith cellsFrom lists (positions it) = it.map Iterator.statePtr := by
  induction h
  case nil              => rfl
  case cons hrp _ ih => rw [positions_cons, List.zipWith_cons_cons, ih, hrp.cellsFrom_eq, List.map_cons]

theorem map_cellsFrom_valuePositions : (valuePositions l).map (cellsFrom l) = cells l := by
  have hlen : l.length + 1 = (l ++ [cfNullValue]).length := by simp
  rw [← map_cellPosition_cells, List.map_map]
  refine (List.map_congr_left fun c hc => ?_).trans <| List.map_id _
  rw [Function.comp_apply, cellsFrom, cellPosition, hlen]
  exact (List.suffix_iff_eq_drop.mp <| suffix_of_mem_cells hc).symm

theorem valuePositions_pairwise : (valuePositions l).Pairwise (· < ·) :=
  List.pairwise_lt_range.sublist List.filter_sublist

theorem valuePositions_ne_nil (h : ∃ x ∈ l, x ≠ cfNullValue) : valuePositions l ≠ [] := by
  obtain ⟨x, hx, hn⟩ := h
  obtain ⟨i, hi, rfl⟩ := List.getElem_of_mem hx
  refine List.ne_nil_of_mem (a := i) <| List.mem_filter.mpr ⟨List.mem_range.mpr hi, ?_⟩
  simpa [List.getElem?_eq_getElem hi] using hn

-- What the iterators go through at the calls of `ActOnPromise` is in the order of the odometer.
theorem ActsOnCombinations.cells_eq (h : ActsOnCombinations lists) (hv : ∀ l ∈ lists, ∃ x ∈ l, x ≠ cfNullValue) :
    ∃ k seen, visits iterationStep k (skipNullIterators (cfNullCutoff + 2) <| newIterationContext lists) = some seen ∧
      seen.map (·.map Iterator.statePtr) = tuples (lists.map cells) := by
  obtain ⟨acts, hacts, -, hperm⟩ := h
  have hexpand := hacts _ <| Nat.le_refl _
  have hne : acts ≠ [] := by
    rintro rfl
    refine tuples_ne_nil (fun t ht => ?_) <| List.nil_perm.mp hperm
    obtain ⟨l, hl, rfl⟩ := List.mem_map.mp ht
    exact valuePositions_ne_nil <| hv l hl
  have hvisits : visits iterationStep acts.length (skipNullIterators (cfNullCutoff + 2) <| newIterationContext lists) =
      some acts := by
    simp only [expandPromiseAndDo] at hexpand
    split at hexpand
    case isTrue  => exact absurd (Option.some.inj hexpand).symm hne
    case isFalse =>
      split at hexpand
      case isTrue  => exact absurd (Option.some.inj hexpand).symm hne
      case isFalse => exact hexpand
  have hstands := @standsOn_skipNullIterators _ lists (cfNullCutoff + 2) standsOn_newIterationContext
  have hpairwise := (visits_pairwise (fun _ _ => standsOn_iterationStep) hstands hvisits).right
  have hall := visits_invariant (fun _ _ hs h => (standsOn_iterationStep hs h).left) hstands hvisits
  have heq : acts.map positions = tuples (lists.map valuePositions) := by
    refine hperm.eq_of_pairwise (fun a b _ _ hab hba => absurd (hab.trans hba) not_before_self) hpairwise <|
      pairwise_tuples fun t ht => ?_
    obtain ⟨l, _, rfl⟩ := List.mem_map.mp ht
    exact valuePositions_pairwise
  refine ⟨_, acts, hvisits, ?_⟩
  calc acts.map (·.map Iterator.statePtr)
    _ = (acts.map positions).map (List.zipWith cellsFrom lists) := by
      rw [List.map_map]
      exact List.map_congr_left fun it hit => (zipWith_cellsFrom_positions <| hall it hit).symm
    _ = tuples (lists.map cells) := by
      rw [heq, zipWith_tuples]
      exact congrArg tuples <| List.map_congr_left fun l _ => map_cellsFrom_valuePositions

end

-- The iteration goes on through these cells of the lists, and ends then.
def Sweeps : List Iterator → List (List (List CString)) → Prop
  | it, []      => (incrementIterationContext it).2 = false
  | it, t :: ts => ∃ it', incrementIterationContext it = (it', true) ∧ it'.map Iterator.statePtr = t ∧ Sweeps it' ts

-- Cells with a value, none of which is the last one of its padded list.
def AtValues (t : List (List CString)) : Prop :=
  ∀ c ∈ t, ∃ x y s, x ≠ cfNullValue ∧ c = x :: y :: s

-- A cell with a value, and those that come after it in its list.
def IsRow : List CString → List (List CString) → Prop
  | c, []      => ∃ x s, x ≠ cfNullValue ∧ c = x :: cfNullValue :: s ∧ ∀ y ∈ s, y = cfNullValue
  | c, d :: ds => (∃ x y s, x ≠ cfNullValue ∧ c = x :: y :: s) ∧ d.length < c.length ∧ IsRow d ds

section

variable {rp : Iterator} {it it' rest : List Iterator} {l c : List CString} {ds : List (List CString)}
  {lists : List (List CString)} {b : Bool}

theorem sweeps_of_visits {k : Nat} {seen : List (List Iterator)} (h : visits iterationStep k it = some seen) :
    ∃ later, seen = it :: later ∧ Sweeps it (later.map (·.map Iterator.statePtr)) := by
  induction k generalizing it seen
  case zero => simp [visits] at h
  case succ k ih =>
    simp only [visits] at h
    split at h
    case h_1 hs     =>
      refine ⟨[], (Option.some.inj h).symm, ?_⟩
      simp only [iterationStep] at hs
      split at hs
      case h_1    => cases hs
      case h_2 hi => exact congrArg Prod.snd hi
    case h_2 it' hs =>
      obtain ⟨seen', hseen, rfl⟩ := Option.map_eq_some_iff.mp h
      obtain ⟨later, rfl, hsweeps⟩ := ih hseen
      simp only [iterationStep] at hs
      split at hs
      case h_1 hi =>
        cases hs
        exact ⟨_, rfl, it', hi, rfl, hsweeps⟩
      case h_2    => cases hs

theorem isRow_of_cells (h : cells l = c :: ds) : IsRow c ds := by
  induction l generalizing c ds
  case nil         => cases h
  case cons x s ih =>
    by_cases hx : x = cfNullValue
    case pos =>
      rw [cells, if_pos hx] at h
      exact ih h
    case neg =>
      rw [cells, if_neg hx] at h
      obtain ⟨rfl, hds⟩ := List.cons.inj h
      cases ds
      case cons d ds =>
        have hm : d ∈ cells s := hds ▸ List.mem_cons_self
        have hlen := length_le_of_mem_cells hm
        refine ⟨exists_cons_cons_of_mem_cells (l := x :: s) <| by simp [cells, hx], ?_, ih hds⟩
        simp only [List.cons_append, List.length_cons, List.length_append, List.length_nil]
        omega
      case nil       =>
        have hnull := cells_eq_nil_iff.mp hds
        cases s
        case nil       => exact ⟨x, [], hx, rfl, List.forall_mem_nil _⟩
        case cons y s =>
          obtain ⟨rfl, hs⟩ := List.forall_mem_cons.mp hnull
          refine ⟨x, s ++ [cfNullValue], hx, rfl, fun y hy => ?_⟩
          exact (List.mem_append.mp hy).elim (hs y) List.mem_singleton.mp

theorem IsRow.length_le_of_getLast {e : List CString} (h : IsRow c ds) (he : (c :: ds).getLast? = some e) :
    e.length ≤ c.length := by
  induction ds generalizing c
  case nil          => exact Option.some.inj he ▸ Nat.le_refl _
  case cons d ds ih =>
    obtain ⟨-, hlt, hrow⟩ := h
    exact (ih hrow he).trans hlt.le

theorem atValues_of_mem_tuples {t : List (List CString)} (h : t ∈ tuples (lists.map cells)) : AtValues t := by
  intro c hc
  obtain ⟨_, hm, hc⟩ := exists_mem_of_mem_tuples h hc
  obtain ⟨l, -, rfl⟩ := List.mem_map.mp hm
  exact exists_cons_cons_of_mem_cells hc

-- What an increment does to a wheel that is not at the end of its list.
theorem increment_cons {x y : CString} {s : List CString} (hp : rp.statePtr = x :: y :: s)
    (hi : incrementIterationContext (rp :: rest) = (it', b)) :
    nullIterators ({ rp with statePtr := y :: s } :: rest) = false ∧ it' = { rp with statePtr := y :: s } :: rest ∧
        b = !endOfIteration it' ∨
      nullIterators ({ rp with statePtr := y :: s } :: rest) = true ∧
        ∃ rest' b', incrementIterationContext rest = (rest', b') ∧
          (b' = true ∧ b = true ∧ it' = { rp with statePtr := rp.rval.tail } :: rest' ∨
            b' = false ∧ it' = { rp with statePtr := s } :: rest' ∧ b = !endOfIteration it') := by
  cases hnull : nullIterators ({ rp with statePtr := y :: s } :: rest)
  case false =>
    rw [incrementIterationContext_of_not_null hp hnull] at hi
    cases hi
    exact .inl ⟨rfl, rfl, rfl⟩
  case true  =>
    refine .inr ⟨rfl, ?_⟩
    cases hinc : incrementIterationContext rest
    case mk rest' b' =>
    refine ⟨rest', b', rfl, ?_⟩
    cases b'
    case true  =>
      rw [incrementIterationContext_of_turn hp hnull hinc] at hi
      cases hi
      exact .inl ⟨rfl, rfl, rfl⟩
    case false =>
      rw [incrementIterationContext_of_null hp hnull hinc] at hi
      cases hi
      exact .inr ⟨rfl, rfl, rfl⟩

theorem endOfIteration_of_increment {x y : CString} {s : List CString} (hp : rp.statePtr = x :: y :: s)
    (hi : incrementIterationContext (rp :: rest) = (it', false)) : endOfIteration it' = true := by
  obtain ⟨-, -, hend⟩ | ⟨-, -, -, -, ⟨-, ht, -⟩ | ⟨-, -, hend⟩⟩ := increment_cons hp hi
  · simpa using hend
  · cases ht
  · simpa using hend

theorem AtValues.nullIterators_cons {y : CString} {s : List CString} (h : AtValues (rest.map Iterator.statePtr)) :
    nullIterators ({ rp with statePtr := y :: s } :: rest) = decide (y = cfNullValue) := by
  have hrest : rest.any (fun rp => rp.statePtr.head? = some cfNullValue) = false := by
    rw [List.any_eq_false]
    intro rp hrp
    obtain ⟨x, y, s, hx, hp⟩ := h _ <| List.mem_map_of_mem hrp
    simpa [hp] using hx
  rw [nullIterators, List.any_cons, hrest]
  simp

theorem AtValues.not_endOfIteration (h : AtValues (it.map Iterator.statePtr)) (hn : it ≠ []) :
    endOfIteration it = false := by
  cases it
  case nil          => exact absurd rfl hn
  case cons rp rest =>
    obtain ⟨x, y, s, -, hp⟩ := h _ List.mem_cons_self
    exact not_endOfIteration_cons <| by simp [hp]

-- From a value of a list to the next one, nothing else moves, and a null value is skipped by the last wheel only.
theorem increment_within {d : List CString} (hr : AtValues (rest.map Iterator.statePtr))
    (hrow : IsRow rp.statePtr (d :: ds)) (hfits : rp.statePtr.length ≤ rp.rval.tail.length)
    (hi : incrementIterationContext (rp :: rest) = (it', true))
    (hm : it'.map Iterator.statePtr = d :: rest.map Iterator.statePtr) :
    it' = { rp with statePtr := d } :: rest ∧
      ∃ x, x ≠ cfNullValue ∧ (rp.statePtr = x :: d ∨ rest = [] ∧ rp.statePtr = x :: cfNullValue :: d) := by
  obtain ⟨⟨x, y, s, hx, hp⟩, hlt, -⟩ := hrow
  obtain ⟨-, rfl, -⟩ | ⟨hnull, rest', b', hinc, ⟨rfl, -, rfl⟩ | ⟨rfl, rfl, -⟩⟩ := increment_cons hp hi
  · obtain rfl := (List.cons.inj hm).left
    exact ⟨rfl, x, hx, .inl hp⟩
  · have hd := (List.cons.inj hm).left
    rw [← hd] at hlt
    exact absurd hfits <| Nat.not_le_of_lt hlt
  · rw [hr.nullIterators_cons, decide_eq_true_eq] at hnull
    obtain ⟨rfl, hrest⟩ := List.cons.inj hm
    by_cases hne : rest = []
    case pos =>
      subst hne
      cases hinc
      exact ⟨rfl, x, hx, .inr ⟨rfl, hnull ▸ hp⟩⟩
    case neg =>
      obtain ⟨rp', rest, rfl⟩ := List.exists_cons_of_ne_nil hne
      obtain ⟨_, _, _, -, hp'⟩ := hr _ List.mem_cons_self
      have hend := endOfIteration_of_increment hp' hinc
      have hne' : rest' ≠ [] := by
        rintro rfl
        cases hrest
      rw [AtValues.not_endOfIteration (hrest ▸ hr) hne'] at hend
      cases hend

-- The wheel goes through the rest of its row while the other wheels do not move.
theorem sweep_row {t : List (List CString)} {more : List (List (List CString))} (ht : rest.map Iterator.statePtr = t)
    (hr : AtValues t) (hrow : IsRow rp.statePtr ds) (hfits : rp.statePtr.length ≤ rp.rval.tail.length)
    (h : Sweeps (rp :: rest) (ds.map (· :: t) ++ more)) :
    ∃ e, (rp.statePtr :: ds).getLast? = some e ∧ IsRow e [] ∧ Sweeps ({ rp with statePtr := e } :: rest) more ∧
      ∀ p, (rest = [] → p) → Turns p e [] → Turns p rp.statePtr ds := by
  subst ht
  induction ds generalizing rp
  case nil          => exact ⟨_, rfl, hrow, h, fun _ _ => id⟩
  case cons d ds ih =>
    obtain ⟨it', hi, hm, h⟩ := h
    obtain ⟨rfl, x, hx, hnext⟩ := increment_within hr hrow hfits hi hm
    obtain ⟨-, hlt, hrow⟩ := hrow
    obtain ⟨e, hlast, he, hsweeps, hturns⟩ := @ih { rp with statePtr := d } hrow (hlt.le.trans hfits) h
    refine ⟨e, hlast, he, hsweeps, fun p hp hend => ⟨⟨x, hx, ?_⟩, hturns p hp hend⟩⟩
    exact hnext.imp_right fun hnext => ⟨hp hnext.left, hnext.right⟩

-- At the end of its row, a wheel is turned back to the first cell when the wheels after it move on, and it comes to
-- its end when they do not.
theorem sweep_turns {first e : List CString} {others : List (List CString)} {ts : List (List (List CString))}
    (hrow : IsRow first others) (hlast : (first :: others).getLast? = some e) (he : IsRow e [])
    (hfits : first.length ≤ rp.rval.tail.length) (hts : ∀ t ∈ ts, AtValues t)
    (h : Sweeps ({ rp with statePtr := e } :: rest) (ts.flatMap fun t => (first :: others).map (· :: t))) :
    Sweeps rest ts ∧ (∀ p, Turns p e []) ∧ (ts ≠ [] → rp.rval.tail = first) := by
  have hle := hrow.length_le_of_getLast hlast
  obtain ⟨x, s, hx, rfl, hs⟩ := he
  have hnull (rest : List Iterator) : nullIterators ({ rp with statePtr := cfNullValue :: s } :: rest) = true := by
    simp [nullIterators]
  induction ts generalizing rest
  case nil          =>
    have hi : incrementIterationContext ({ rp with statePtr := x :: cfNullValue :: s } :: rest) = (_, false) :=
      Prod.ext rfl h
    obtain ⟨hn, -⟩ | ⟨-, rest', b', hinc, ⟨-, ht, -⟩ | ⟨rfl, hit, hend⟩⟩ := increment_cons rfl hi
    · exact absurd ((hnull _).symm.trans hn) <| by decide
    · cases ht
    · refine ⟨congrArg Prod.snd hinc, fun p => ⟨x, hx, ?_⟩, absurd rfl⟩
      rw [hit] at hend
      have hlen : s.length ≤ 1 := by
        by_contra hlt
        rw [not_endOfIteration_cons <| Nat.lt_of_not_le hlt] at hend
        cases hend
      cases s
      case nil        => exact .inl rfl
      case cons y s =>
        cases s
        case nil  => exact .inr <| by rw [hs y List.mem_cons_self]
        case cons => simp at hlen
  case cons t ts ih =>
    obtain ⟨ht, hts⟩ := List.forall_mem_cons.mp hts
    rw [List.flatMap_cons, List.map_cons, List.cons_append] at h
    obtain ⟨it', hi, hm, h⟩ := h
    obtain ⟨hn, -⟩ | ⟨-, rest', b', hinc, ⟨rfl, -, rfl⟩ | ⟨-, rfl, -⟩⟩ := increment_cons rfl hi
    · exact absurd ((hnull _).symm.trans hn) <| by decide
    · obtain ⟨hfirst, hrest⟩ := List.cons.inj hm
      dsimp only at hfirst
      rw [hfirst] at h
      obtain ⟨e', he', -, hsweeps, -⟩ :=
        @sweep_row { rp with statePtr := first } rest' others t _ hrest ht hrow hfits h
      obtain rfl := Option.some.inj <| he'.symm.trans hlast
      obtain ⟨hsweeps, hturns, -⟩ := ih hts hsweeps
      exact ⟨⟨rest', hinc, hrest, hsweeps⟩, hturns, fun _ => hfirst⟩
    · have hfirst : s = first := (List.cons.inj hm).left
      rw [hfirst, List.length_cons, List.length_cons] at hle
      omega

-- An iteration through all of the combinations follows the odometer.
theorem Sweeps.follows {ws : List (Wheel (List CString))} (hstands : List.Forall₂ Iterator.StandsOn it lists)
    (hitems : ws.map Wheel.items = lists.map cells) (hstart : ∀ w ∈ ws, w = w.reset)
    (hat : it.map Iterator.statePtr = current ws) (h : Sweeps it (later ws)) : Follows it ws := by
  induction hstands generalizing ws
  case nil                            =>
    obtain rfl := List.map_eq_nil_iff.mp hitems
    trivial
  case cons rp l rest ls hrp hrest ih =>
    cases ws
    case nil       => cases hitems
    case cons w ws =>
    obtain ⟨hw, hitems⟩ := List.cons.inj hitems
    obtain ⟨hreset, hstart⟩ := List.forall_mem_cons.mp hstart
    obtain ⟨hcurrent, hat⟩ := List.cons.inj hat
    have hrow : IsRow w.first w.others := isRow_of_cells hw.symm
    have hfirst : w.current = w.first := congrArg Wheel.current hreset
    have hothers : w.rest = w.others := congrArg Wheel.rest hreset
    have hall : ∀ t ∈ current ws :: later ws, AtValues t := by
      rw [← tuples_eq_of_start hstart, hitems]
      exact fun t => atValues_of_mem_tuples
    obtain ⟨hvalues, hlater⟩ := List.forall_mem_cons.mp hall
    have hfits : w.first.length ≤ rp.rval.tail.length := by
      have hm : w.first ∈ cells l := hw ▸ List.mem_cons_self
      simpa [hrp.rval, pad] using length_le_of_mem_cells hm
    rw [later, hothers] at h
    rw [hfirst] at hcurrent
    obtain ⟨e, hlast, he, hsweeps, hturns⟩ := sweep_row hat hvalues (hcurrent ▸ hrow) (hcurrent ▸ hfits) h
    obtain ⟨hsweeps, hend, htail⟩ := sweep_turns hrow (hcurrent ▸ hlast) he hfits hlater hsweeps
    have hrest : rest = [] → ws = [] := by
      rintro rfl
      exact List.map_eq_nil_iff.mp hat.symm
    have hturns := hturns (ws = []) hrest (hend _)
    rw [hcurrent] at hturns
    refine ⟨hcurrent.trans hfirst.symm, hfirst ▸ hothers ▸ hturns, ih hitems hstart hat hsweeps, ?_⟩
    by_cases hn : later ws = []
    case neg => exact .inl ⟨htail hn, hturns⟩
    case pos =>
      refine .inr <| Option.eq_none_iff_forall_ne_some.mpr fun ws' hnext => ?_
      cases hn.symm.trans <| later_of_next_eq_some hnext

end

def Increments (it it' : List Iterator) : Prop :=
  incrementIterationContext it = (it', true)

section

variable {rp : Iterator} {it it' rest : List Iterator} {l c : List CString} {ds : List (List CString)}
  {lists : List (List CString)} {b : Bool}

theorem eq_or_endOfIteration (hi : incrementIterationContext it = (it', false)) :
    it' = it ∨ endOfIteration it' = true := by
  induction it generalizing it'
  case nil             => exact .inl (Prod.mk.inj hi).left.symm
  case cons rp rest ih =>
    rcases hp : rp.statePtr with _ | ⟨x, _ | ⟨y, s⟩⟩
    · simp only [incrementIterationContext, hp] at hi
      exact .inl (Prod.mk.inj hi).left.symm
    · simp only [incrementIterationContext, hp] at hi
      split at hi
      case h_1          => cases (Prod.mk.inj hi).right
      case h_2 rest' hr =>
        obtain ⟨rfl, -⟩ := Prod.mk.inj hi
        obtain rfl | hend := ih hr
        · exact .inl rfl
        · simp only [endOfIteration] at hend
          exact .inr <| by simp [endOfIteration, hp, hend]
    · exact .inr <| endOfIteration_of_increment hp hi

theorem reaches_skipNullIterators {rounds : Nat} (hend : endOfIteration (skipNullIterators rounds it) = false) :
    ReflTransGen Increments it (skipNullIterators rounds it) := by
  induction rounds generalizing it
  case zero           => exact .refl
  case succ rounds ih =>
    rw [skipNullIterators] at hend ⊢
    split at hend
    case isFalse hn => simp [hn, ReflTransGen.refl]
    case isTrue hn  =>
      rw [if_pos hn]
      cases hi : incrementIterationContext it
      case mk it' b =>
      rw [hi] at hend
      cases b
      case true  => exact .head hi <| ih hend
      case false =>
        obtain rfl | hend' := eq_or_endOfIteration hi
        · exact ih hend
        · rw [skipNullIterators_of_endOfIteration hend', hend'] at hend
          cases hend

theorem eq_of_reaches_of_endOfIteration (h : ReflTransGen Increments it it') (hend : endOfIteration it = true) :
    it' = it := by
  obtain rfl | ⟨_, hi, -⟩ := h.cases_head
  · rfl
  · cases (incrementIterationContext_of_endOfIteration hend).symm.trans hi

theorem tail_increment (hi : incrementIterationContext (rp :: rest) = (it', b)) :
    it'.tail = rest ∨ it'.tail = (incrementIterationContext rest).1 := by
  simp only [incrementIterationContext] at hi
  split at hi
  case h_1 => exact .inl <| (Prod.mk.inj hi).left ▸ rfl
  case h_2 =>
    split at hi
    all_goals
      rename_i hr
      exact .inr <| (Prod.mk.inj hi).left ▸ hr ▸ rfl
  case h_3 =>
    split at hi
    case isFalse => exact .inl <| (Prod.mk.inj hi).left ▸ rfl
    case isTrue  =>
      split at hi
      all_goals
        rename_i hr
        exact .inr <| (Prod.mk.inj hi).left ▸ hr ▸ rfl

-- The wheels after the first one get where they are by increments of their own.
theorem reaches_tail (h : ReflTransGen Increments it it') (hend : endOfIteration it'.tail = false) :
    ReflTransGen Increments it.tail it'.tail := by
  induction h using ReflTransGen.head_induction_on
  case refl            => exact .refl
  case head a c hi _ ih =>
    cases a
    case nil          => cases hi
    case cons rp rest =>
      obtain ht | ht := tail_increment hi
      · exact ht ▸ ih
      · cases hr : incrementIterationContext rest
        case mk rest' b =>
        rw [hr] at ht
        subst ht
        cases b
        case true  => exact .head hr ih
        case false =>
          obtain he | hend' := eq_or_endOfIteration hr
          · exact he ▸ ih
          · rw [eq_of_reaches_of_endOfIteration ih hend', hend'] at hend
            cases hend

theorem standsOn_of_reaches (h : ReflTransGen Increments it it') (hs : List.Forall₂ Iterator.StandsOn it lists) :
    List.Forall₂ Iterator.StandsOn it' lists := by
  induction h
  case refl         => exact hs
  case tail hi ih => exact (increment_before ih hi).left

-- With the other wheels at values, a wheel is at its start or has come from the cell before, to a value.
theorem exists_before_of_increments {rp' : Iterator} {rest' : List Iterator} (hi : Increments it (rp' :: rest'))
    (hv : AtValues (rest'.map Iterator.statePtr)) (hne : rest' ≠ []) :
    rp'.statePtr = rp'.rval.tail ∨
      ∃ a, it = { rp' with statePtr := a :: rp'.statePtr } :: rest' ∧ nullIterators (rp' :: rest') = false := by
  cases it
  case nil          => cases hi
  case cons rp rest =>
    rcases hp : rp.statePtr with _ | ⟨x, _ | ⟨y, s⟩⟩
    · simp [Increments, incrementIterationContext, hp] at hi
    · simp only [Increments, incrementIterationContext, hp] at hi
      split at hi
      case h_1 =>
        cases hi
        exact .inl rfl
      case h_2 => cases (Prod.mk.inj hi).right
    · obtain ⟨hn, hit, -⟩ | ⟨-, rest'', b', hr, ⟨-, -, hit⟩ | ⟨rfl, hit, -⟩⟩ := increment_cons hp hi
      · cases hit
        exact .inr ⟨x, by rw [← hp], hn⟩
      · cases hit
        exact .inl rfl
      · cases hit
        have hend : endOfIteration rest' = true := by
          obtain rfl | hend := eq_or_endOfIteration hr
          · obtain ⟨rp', rest', rfl⟩ := List.exists_cons_of_ne_nil hne
            obtain ⟨_, _, _, -, hp'⟩ := hv _ List.mem_cons_self
            exact endOfIteration_of_increment hp' hr
          · exact hend
        rw [hv.not_endOfIteration hne] at hend
        cases hend

theorem eq_null_of_suffix {a : CString} {n : Nat} {z : List CString}
    (h : a :: z <:+ List.replicate (n + 1) cfNullValue ++ z) : a = cfNullValue := by
  have hnull : cfNullValue :: z <:+ List.replicate (n + 1) cfNullValue ++ z :=
    ⟨List.replicate n cfNullValue, by rw [List.replicate_succ', List.append_assoc]; rfl⟩
  have heq := (List.suffix_of_suffix_length_le h hnull <| Nat.le_refl _).eq_of_length rfl
  exact (List.cons.inj heq).left

-- Before the other wheels stop at their first values, a wheel is turned back again and again. From there, it comes to
-- its first value over one null value at most.
theorem leadingNulls_le_one (hl : l ≠ []) (hp : rp.statePtr = withoutLeadingNulls l ++ [cfNullValue])
    (hv : AtValues (rest.map Iterator.statePtr)) (hne : rest ≠ [])
    (h : ReflTransGen Increments (newIterationContext (l :: lists)) (rp :: rest)) : leadingNulls l ≤ 1 := by
  have hstands {it : List Iterator} (h : ReflTransGen Increments (newIterationContext (l :: lists)) it) :=
    standsOn_of_reaches h standsOn_newIterationContext
  by_contra hlt
  obtain ⟨n, hn⟩ : ∃ n, leadingNulls l = n + 2 := ⟨leadingNulls l - 2, by omega⟩
  have hpadded :
      l ++ [cfNullValue] = List.replicate (n + 2) cfNullValue ++ (withoutLeadingNulls l ++ [cfNullValue]) := by
    rw [← List.append_assoc, ← hn, replicate_append_withoutLeadingNulls]
  have hlong : rp.statePtr.length + 2 ≤ (l ++ [cfNullValue]).length := by
    rw [hpadded, hp]
    simp only [List.length_append, List.length_replicate]
    omega
  have hrval : rp.rval.tail = l ++ [cfNullValue] := by
    cases hstands h
    case cons hrp _ => rw [hrp.rval, pad, List.cons_append, List.tail_cons]
  rw [newIterationContext_cons hl] at h hstands
  -- Neither the cell of the first value nor the one before it is the first cell of the list.
  obtain he | ⟨it, h, hi⟩ := h.cases_tail
  · rw [(List.cons.inj he).left] at hlong
    dsimp only at hlong
    omega
  obtain hturn | ⟨a, rfl, -⟩ := exists_before_of_increments hi hv hne
  · rw [hturn, hrval] at hlong
    omega
  have ha : a = cfNullValue := by
    cases hstands h
    case cons hrp _ =>
    refine eq_null_of_suffix (n := n + 1) (z := rp.statePtr) ?_
    rw [hp, ← hpadded, ← hp]
    exact hrp.statePtr
  obtain he | ⟨it, h, hi⟩ := h.cases_tail
  · have hfirst := congrArg (fun rp => rp.statePtr.length) (List.cons.inj he).left
    simp only [List.length_cons] at hfirst
    omega
  obtain hturn | ⟨_, -, hnull⟩ := exists_before_of_increments hi hv hne
  · have hfirst := congrArg List.length hturn
    rw [hrval, List.length_cons] at hfirst
    omega
  · rw [ha, nullIterators_null_cons] at hnull
    cases hnull

theorem exists_of_turns_cons {p : Prop} {z d : List CString} (h : Turns p (z ++ [cfNullValue]) (d :: ds)) :
    ∃ x y z', x ≠ cfNullValue ∧ y ≠ cfNullValue ∧ Turns p (y :: z' ++ [cfNullValue]) ds ∧
      (z = x :: y :: z' ∨ p ∧ z = x :: cfNullValue :: y :: z') := by
  obtain ⟨⟨x, hx, hd⟩, ht⟩ := h
  obtain ⟨y, y', s, hy, rfl⟩ := ht.exists_cons
  have hsplit : (y :: (y' :: s).dropLast) ++ [(y' :: s).getLast (List.cons_ne_nil _ _)] = y :: y' :: s := by
    rw [List.cons_append, List.dropLast_append_getLast]
  rw [← hsplit] at hd ht
  refine ⟨x, y, (y' :: s).dropLast, hx, hy, ?_⟩
  obtain hd | ⟨hp, hd⟩ := hd
  · obtain ⟨rfl, hnull⟩ := List.append_inj' (show z ++ _ = (x :: y :: (y' :: s).dropLast) ++ _ from hd) rfl
    exact ⟨hnull ▸ ht, .inl rfl⟩
  · obtain ⟨rfl, hnull⟩ :=
      List.append_inj' (show z ++ _ = (x :: cfNullValue :: y :: (y' :: s).dropLast) ++ _ from hd) rfl
    exact ⟨hnull ▸ ht, .inr ⟨hp, rfl⟩⟩

-- The row of a wheel that skips null values has no two of them in a row.
theorem not_isInfix_of_turns {z : List CString} (h : Turns True (z ++ [cfNullValue]) ds) :
    ¬[cfNullValue, cfNullValue] <:+: z := by
  have hhead {x : CString} {z : List CString} (hx : x ≠ cfNullValue) : ¬[cfNullValue, cfNullValue] <+: x :: z :=
    fun hp => hx (List.cons_prefix_cons.mp hp).left.symm
  induction ds generalizing z
  case nil          =>
    obtain ⟨x, hx, hz | hz⟩ := h
    · obtain rfl : z = [x] := List.append_cancel_right hz
      exact fun hi => absurd hi.length_le <| by simp
    · obtain rfl : z = [x, cfNullValue] := List.append_cancel_right hz
      exact fun hi => hx (List.cons.inj <| hi.eq_of_length rfl).left.symm
  case cons d ds ih =>
    obtain ⟨x, y, z, hx, hy, ht, rfl | ⟨-, rfl⟩⟩ := exists_of_turns_cons h
    · exact fun hi => (List.infix_cons_iff.mp hi).elim (hhead hx) (ih ht)
    · intro hi
      obtain hp | hi := List.infix_cons_iff.mp hi
      · exact hhead hx hp
      · obtain hp | hi := List.infix_cons_iff.mp hi
        · exact hy (List.cons_prefix_cons.mp (List.cons_prefix_cons.mp hp).right).left.symm
        · exact ih ht hi

-- That of any other wheel has a null value at its end only.
theorem not_mem_dropLast_of_turns {z : List CString} (h : Turns False (z ++ [cfNullValue]) ds) :
    cfNullValue ∉ z.dropLast := by
  induction ds generalizing z
  case nil          =>
    obtain ⟨x, hx, hz | hz⟩ := h
    · obtain rfl : z = [x] := List.append_cancel_right hz
      exact List.not_mem_nil
    · obtain rfl : z = [x, cfNullValue] := List.append_cancel_right hz
      exact fun hm => hx (List.mem_singleton.mp hm).symm
  case cons d ds ih =>
    obtain ⟨x, y, z, hx, hy, ht, rfl | ⟨hp, -⟩⟩ := exists_of_turns_cons h
    · rw [List.dropLast_cons_of_ne_nil <| List.cons_ne_nil y z, List.mem_cons]
      exact not_or.mpr ⟨hx.symm, ih ht⟩
    · exact hp.elim

theorem eq_of_cells_cons (h : cells l = c :: ds) :
    c = withoutLeadingNulls l ++ [cfNullValue] ∧ withoutLeadingNulls l ≠ [] := by
  induction l
  case nil         => cases h
  case cons x s ih =>
    by_cases hx : x = cfNullValue
    case pos =>
      subst hx
      rw [cells, if_pos rfl] at h
      exact withoutLeadingNulls_null_cons ▸ ih h
    case neg =>
      rw [cells, if_neg hx] at h
      rw [withoutLeadingNulls_cons hx]
      exact ⟨(List.cons.inj h).left.symm, List.cons_ne_nil _ _⟩

variable {ws : List (Wheel (List CString))}

theorem Follows.atValues (hf : Follows it ws) (hitems : ws.map Wheel.items = lists.map cells)
    (hstart : ∀ w ∈ ws, w = w.reset) : AtValues (it.map Iterator.statePtr) := by
  have hm : it.map Iterator.statePtr ∈ tuples (lists.map cells) := by
    rw [hf.statePtr_eq, ← hitems, tuples_eq_of_start hstart]
    exact List.mem_cons_self
  exact atValues_of_mem_tuples hm

-- The iteration only comes to follow the odometer if the null values are at places where they are skipped.
theorem Follows.skipsNulls (hf : Follows it ws) (hstands : List.Forall₂ Iterator.StandsOn it lists)
    (hitems : ws.map Wheel.items = lists.map cells) (hstart : ∀ w ∈ ws, w = w.reset)
    (h : ReflTransGen Increments (newIterationContext lists) it) : SkipsNulls lists := by
  induction hstands generalizing ws
  case nil                          => trivial
  case cons rp l rest ls hrp hrest ih =>
    cases ws
    case nil       => cases hitems
    case cons w ws =>
    obtain ⟨hcurrent, hturns, hf, hback⟩ := hf
    obtain ⟨hw, hitems⟩ := List.cons.inj hitems
    obtain ⟨hreset, hstart⟩ := List.forall_mem_cons.mp hstart
    obtain ⟨hfirst, hne⟩ := eq_of_cells_cons hw.symm
    have hl : l ≠ [] := by
      rintro rfl
      exact hne rfl
    have hatfirst : w.current = w.first := congrArg Wheel.current hreset
    have hlists : ls = [] ↔ ws = [] := by
      rw [← List.map_eq_nil_iff (f := cells), ← hitems, List.map_eq_nil_iff]
    have hiterators : rest = [] ↔ ls = [] := by
      rw [← List.length_eq_zero_iff, hrest.length_eq, List.length_eq_zero_iff]
    rw [hatfirst, hfirst] at hturns hcurrent
    refine ⟨hne, fun hls => ?_, fun hls => ⟨?_, ?_, fun hone l' hl' => ?_⟩, ?_⟩
    · exact not_isInfix_of_turns <| hturns.imp fun _ => trivial
    · have hrest : rest ≠ [] := mt hiterators.mp hls
      exact leadingNulls_le_one hl hcurrent (hf.atValues hitems hstart) hrest h
    · exact not_mem_dropLast_of_turns <| hturns.imp fun hws => hls <| hlists.mpr hws
    · have hnext : next ws = none := hback.resolve_left fun hback => by
        have hsame : l = withoutLeadingNulls l := by simpa [hrp.rval, pad, hfirst] using hback.left
        have hlen := congrArg List.length <| replicate_append_withoutLeadingNulls (l := l)
        rw [← hsame, List.length_append, List.length_replicate] at hlen
        omega
      obtain ⟨w', hw', he⟩ := List.mem_map.mp <| hitems ▸ List.mem_map_of_mem (f := cells) hl'
      have hothers : w'.others = [] :=
        (congrArg Wheel.rest <| hstart w' hw').symm.trans <| rest_eq_nil_of_next_eq_none hnext w' hw'
      rw [← he, Wheel.items, hothers, List.length_singleton]
    · by_cases hls : ls = []
      case pos => exact hls ▸ trivial
      case neg =>
        have hend := (hf.atValues hitems hstart).not_endOfIteration <| mt hiterators.mp hls
        have htail := reaches_tail h hend
        rw [newIterationContext_cons hl] at htail
        exact ih hf hitems hstart htail

end

-- Where each list has a value, there is no other way for the null values to be skipped.
theorem ActsOnCombinations.skipsInTime {lists : List (List CString)} (h : ActsOnCombinations lists)
    (hv : ∀ l ∈ lists, ∃ x ∈ l, x ≠ cfNullValue) : SkipsInTime lists := by
  by_cases hn : lists = []
  case pos => exact .inl <| hn ▸ nofun
  case neg =>
    obtain ⟨k, seen, hvisits, hcells⟩ := h.cells_eq hv
    obtain ⟨later', rfl, hsweeps⟩ := sweeps_of_visits hvisits
    have hne : ∀ cs ∈ lists.map cells, cs ≠ [] := by
      intro cs hcs
      obtain ⟨l, hl, rfl⟩ := List.mem_map.mp hcs
      obtain ⟨x, hx, hxn⟩ := hv l hl
      exact fun hc => hxn <| cells_eq_nil_iff.mp hc x hx
    obtain ⟨ws, hitems, hstart⟩ := exists_wheels hne
    rw [← hitems, tuples_eq_of_start hstart, List.map_cons] at hcells
    obtain ⟨hat, hlater⟩ := List.cons.inj hcells
    have hstands := @standsOn_skipNullIterators _ lists (cfNullCutoff + 2) standsOn_newIterationContext
    have hf := Sweeps.follows hstands hitems hstart hat (hlater ▸ hsweeps)
    have hfirst : skipNullIterators (cfNullCutoff + 2) (newIterationContext lists) ≠ [] := by
      rw [← List.length_pos_iff, hstands.length_eq]
      exact List.length_pos_iff.mpr hn
    have hreaches := reaches_skipNullIterators <| (hf.atValues hitems hstart).not_endOfIteration hfirst
    have hs := hf.skipsNulls hstands hitems hstart hreaches
    refine .inr <| .inl ⟨hs, ?_⟩
    by_contra hr
    have hpending := (pending_newIterationContext hs).skipNullIterators hs (cfNullCutoff + 2)
    have hnull := hpending.nullIterators <| by omega
    rw [hf.not_nullIterators] at hnull
    cases hnull

-- The condition is enough for all lists, and no more than is needed for lists that each have a value.
theorem actsOnCombinations_skipsInTime (lists : List (List CString)) :
    (SkipsInTime lists → ActsOnCombinations lists) ∧
      ((∀ l ∈ lists, ∃ x ∈ l, x ≠ cfNullValue) → ActsOnCombinations lists → SkipsInTime lists) :=
  ⟨SkipsInTime.actsOnCombinations, fun hv h => h.skipsInTime hv⟩

theorem actsOnCombinations_two :
    ActsOnCombinations [[['a'], ['b'], cfNullValue], [cfNullValue, ['c']]] ∧
      ¬ActsOnCombinations [[['a'], cfNullValue, ['b']], [['c']]] := by
  constructor
  case left  =>
    refine (actsOnCombinations_skipsInTime _).left (.inr <| .inl ⟨⟨?_, ?_, ?_, ?_⟩, ?_⟩)
    case refine_3 => exact fun _ => ⟨by decide, by decide, by decide⟩
    case refine_4 => exact ⟨by decide, fun _ => by decide, nofun, trivial⟩
    all_goals decide
  case right =>
    intro h
    obtain hempty | ⟨hskips, -⟩ | ⟨l, ls, n, he, -, hnull, -⟩ := (actsOnCombinations_skipsInTime _).right (by decide) h
    · exact absurd (hempty _ List.mem_cons_self) nofun
    · obtain ⟨-, -, hmid, -⟩ := hskips
      exact absurd (hmid nofun).right.left <| by decide
    · obtain ⟨rfl, -⟩ := List.cons.inj he
      exact absurd (hnull ['a'] List.mem_cons_self) <| by decide

-- The second list has no value. Its null value turns the wheel before it past its own values.
theorem not_actsOnCombinations_null :
    ¬ActsOnCombinations [[['a'], ['b'], ['c']], [cfNullValue]] := by
  intro ⟨acts, hf, hv, _⟩
  have hr : expandPromiseAndDo 1 [[['a'], ['b'], ['c']], [cfNullValue]] =
      some [[⟨pad [['a'], ['b'], ['c']], [['c'], cfNullValue]⟩, ⟨pad [cfNullValue], []⟩]] := by
    decide
  have hr := expandPromiseAndDo_of_le (Nat.le_add_left 1 acts.length) hr
  rw [hf _ <| Nat.le_add_right _ _] at hr
  cases Option.some.inj hr
  have ⟨x, s, he, _⟩ := hv _ List.mem_cons_self ⟨pad [cfNullValue], []⟩ (by simp)
  contradiction

end CfEngine
