import CfEngine.Libpromises.Iteration

open Odometer

namespace CfEngine

def cfNullCutoff : Nat := 5

-- The loop that increments the iterators past null values. It makes one more round after the variable
-- `cutoff` has exceeded the limit.
def skipNullIterators : (rounds : Nat) → List Iterator → List Iterator
  | 0, lol          => lol
  | rounds + 1, lol =>
    if nullIterators lol then skipNullIterators rounds (incrementIterationContext lol).1 else lol

-- Yields the iterators at each call of `ActOnPromise`, where `fuel` bounds the rounds of the loop.
def expandPromiseAndDo (fuel : Nat) (lists : List (List CString)) : Option (List (List Iterator)) :=
  let lol := newIterationContext lists
  if lol ≠ [] ∧ endOfIteration lol then
    some []
  else
    let lol := skipNullIterators (cfNullCutoff + 2) lol
    if lol ≠ [] ∧ endOfIteration lol then
      some []
    else
      visits iterationStep fuel lol

-- `ActOnPromise` is called once for each combination of values other than null, and at no other time.
def ActsOnCombinations (lists : List (List CString)) : Prop :=
  ∃ acts : List (List Iterator),
    (∀ fuel, acts.length ≤ fuel → expandPromiseAndDo fuel lists = some acts) ∧
    (∀ lol ∈ acts, ∀ rp ∈ lol, ∃ x s, rp.statePtr = x :: s ∧ x ≠ cfNullValue) ∧
    (acts.map positions).Perm (tuples <| lists.map valuePositions)

def leadingNulls (l : List CString) : Nat :=
  (l.takeWhile (· = cfNullValue)).length

def withoutLeadingNulls (l : List CString) : List CString :=
  l.dropWhile (· = cfNullValue)

-- After its first value, the last list has no two null values in a row. Any other list has no null
-- value after its first value except at its end, and one null value at most before it. If it does
-- have one there, then each list after it has just one value.
def SkipsNulls : List (List CString) → Prop
  | []      => True
  | l :: ls =>
    withoutLeadingNulls l ≠ [] ∧
    (ls = [] → ¬[cfNullValue, cfNullValue] <:+: withoutLeadingNulls l) ∧
    (ls ≠ [] → leadingNulls l ≤ 1 ∧ cfNullValue ∉ (withoutLeadingNulls l).dropLast ∧
      (leadingNulls l = 1 → ∀ l' ∈ ls, (cells l').length = 1)) ∧
    SkipsNulls ls

-- The number of increments that lead to the first value of each list.
def skipRounds (lists : List (List CString)) : Nat :=
  (lists.map fun l => (leadingNulls l + 1) / 2).sum

-- The number of increments that succeed before the iteration ends.
inductive Exhaustible : List (List CString) → Nat → Prop
  | values {lists} : SkipsNulls lists →
    Exhaustible lists (skipRounds lists + (tuples <| lists.map cells).length - 1)
  | empty {lists} : (∀ l ∈ lists, l = []) → Exhaustible lists 0
  | null {l ls n} : l ≠ [] → (∀ x ∈ l, x = cfNullValue) → Exhaustible ls n →
    Exhaustible (l :: ls) (n + (l.length + 1) / 2 - 1)

-- The null values are skipped before the cutoff.
def SkipsInTime (lists : List (List CString)) : Prop :=
  (∀ l ∈ lists, l = []) ∨ SkipsNulls lists ∧ skipRounds lists ≤ cfNullCutoff + 2 ∨
  ∃ l ls n, lists = l :: ls ∧ l ≠ [] ∧ (∀ x ∈ l, x = cfNullValue) ∧ Exhaustible ls n ∧
    n + (l.length + 1) / 2 ≤ cfNullCutoff + 2

section

variable {l : List CString}

theorem leadingNulls_null_cons : leadingNulls (cfNullValue :: l) = leadingNulls l + 1 := by
  simp [leadingNulls]

theorem withoutLeadingNulls_null_cons :
    withoutLeadingNulls (cfNullValue :: l) = withoutLeadingNulls l := by
  simp [withoutLeadingNulls]

theorem leadingNulls_cons {x : CString} (hx : x ≠ cfNullValue) : leadingNulls (x :: l) = 0 := by
  simp [leadingNulls, hx]

theorem withoutLeadingNulls_cons {x : CString} (hx : x ≠ cfNullValue) :
    withoutLeadingNulls (x :: l) = x :: l := by
  simp [withoutLeadingNulls, hx]

theorem replicate_append_withoutLeadingNulls :
    List.replicate (leadingNulls l) cfNullValue ++ withoutLeadingNulls l = l := by
  induction l
  case nil => rfl
  case cons x s ih =>
    by_cases hx : x = cfNullValue
    case neg => simp [leadingNulls_cons hx, withoutLeadingNulls_cons hx]
    case pos =>
      subst hx
      rw [leadingNulls_null_cons, withoutLeadingNulls_null_cons, List.replicate_succ,
        List.cons_append, ih]

theorem cells_withoutLeadingNulls : cells (withoutLeadingNulls l) = cells l := by
  induction l
  case nil => rfl
  case cons x s ih =>
    by_cases hx : x = cfNullValue
    case neg => rw [withoutLeadingNulls_cons hx]
    case pos =>
      subst hx
      rw [withoutLeadingNulls_null_cons, ih]
      simp [cells]

theorem exists_withoutLeadingNulls (h : withoutLeadingNulls l ≠ []) :
    ∃ x s, withoutLeadingNulls l = x :: s ∧ x ≠ cfNullValue := by
  induction l
  case nil => exact absurd rfl h
  case cons x s ih =>
    by_cases hx : x = cfNullValue
    case neg => exact ⟨x, s, withoutLeadingNulls_cons hx, hx⟩
    case pos =>
      subst hx
      rw [withoutLeadingNulls_null_cons] at h ⊢
      exact ih h

end

-- The last list from a value on, without two null values in a row.
theorem turns_of_not_isInfix {x : CString} (hx : x ≠ cfNullValue) : (s : List CString) →
    ¬[cfNullValue, cfNullValue] <:+: x :: s → Turns True (x :: s ++ [cfNullValue]) (cells s)
  | [], _     => ⟨x, hx, .inl rfl⟩
  | y :: s, h => by
    have hy' : ¬[cfNullValue, cfNullValue] <:+: y :: s := fun hc => h <| List.infix_cons hc
    by_cases hy : y = cfNullValue
    case neg =>
      simp only [cells, hy, ite_false]
      exact ⟨⟨x, hx, .inl rfl⟩, turns_of_not_isInfix hy s hy'⟩
    case pos =>
      subst hy
      cases s
      case nil =>
        have hc : cells [cfNullValue] = [] := by simp [cells]
        exact hc ▸ ⟨x, hx, .inr rfl⟩
      case cons z s =>
        have hz : z ≠ cfNullValue := by
          rintro rfl
          exact hy' ⟨[], s, rfl⟩
        simp only [cells, hz, ite_true, ite_false]
        exact ⟨⟨x, hx, .inr ⟨trivial, rfl⟩⟩,
          turns_of_not_isInfix hz s fun hc => hy' <| List.infix_cons hc⟩

-- Any other list from a value on, with a null value at most at its end.
theorem turns_of_not_mem_dropLast {p : Prop} {x : CString} {s : List CString} (hx : x ≠ cfNullValue)
    (h : cfNullValue ∉ (x :: s).dropLast) : Turns p (x :: s ++ [cfNullValue]) (cells s) := by
  induction s generalizing x
  case nil => exact ⟨x, hx, .inl rfl⟩
  case cons y s ih =>
    have h' : cfNullValue ∉ (y :: s).dropLast := fun hc => h <| by simp [hc]
    by_cases hy : y = cfNullValue
    case neg =>
      simp only [cells, hy, ite_false]
      exact ⟨⟨x, hx, .inl rfl⟩, ih hy h'⟩
    case pos =>
      subst hy
      cases s
      case cons => simp at h'
      case nil =>
        have hc : cells [cfNullValue] = [] := by simp [cells]
        exact hc ▸ ⟨x, hx, .inr rfl⟩

-- The iterators stand before the first values of their lists, which `n` increments lead to. As long as
-- there are null values at an iterator after it, an iterator is at the start of its list.
def Pending : List Iterator → List (List CString) → Nat → Prop
  | [], [], n              => n = 0
  | rp :: rest, l :: ls, n => ∃ k m, rp.rval = pad l ∧ k ≤ leadingNulls l ∧
    rp.statePtr = List.replicate k cfNullValue ++ withoutLeadingNulls l ++ [cfNullValue] ∧
    (m ≠ 0 → k = leadingNulls l) ∧ Pending rest ls m ∧ n = (k + 1) / 2 + m
  | _, _, _                => False

section

variable {it it' : List Iterator} {lists : List (List CString)} {n : Nat}

theorem pending_newIterationContext (h : SkipsNulls lists) :
    Pending (newIterationContext lists) lists (skipRounds lists) := by
  rw [newIterationContext_eq_map]
  induction lists
  case nil => rfl
  case cons l lists ih =>
    have ⟨hl, _, _, hs⟩ := h
    have hne : l ≠ [] := by
      rintro rfl
      exact hl rfl
    refine ⟨leadingNulls l, skipRounds lists, rfl, Nat.le_refl _, ?_, fun _ => rfl, ih hs, ?_⟩
    · rw [replicate_append_withoutLeadingNulls]
      simp [hne]
    · simp [skipRounds]

theorem Pending.nullIterators (h : Pending it lists n) (hn : n ≠ 0) : nullIterators it = true := by
  induction it generalizing lists n
  case nil =>
    cases lists
    case nil  => exact absurd h hn
    case cons => exact h.elim
  case cons rp rest ih =>
    cases lists
    case nil => exact h.elim
    case cons l ls =>
      have ⟨k, m, _, _, hp, _, hm, he⟩ := h
      simp only [CfEngine.nullIterators, List.any_cons, Bool.or_eq_true, decide_eq_true_eq]
      cases k
      case zero   => exact .inr <| ih hm (by omega)
      case succ k => exact .inl <| by simp [hp, List.replicate_succ]

theorem next_eq_none_of_rest {ws : List (Wheel (List CString))} (h : ∀ w ∈ ws, w.rest = []) :
    next ws = none := by
  induction ws
  case nil => rfl
  case cons w ws ih =>
    have ⟨hw, h⟩ := List.forall_mem_cons.mp h
    simp [next, hw, ih h]

theorem Pending.map_rval (h : Pending it lists n) : it.map Iterator.rval = lists.map pad := by
  induction it generalizing lists n
  case nil =>
    cases lists
    case nil  => rfl
    case cons => exact h.elim
  case cons rp rest ih =>
    cases lists
    case nil => exact h.elim
    case cons l ls =>
      have ⟨k, m, hr, _, _, _, hm, _⟩ := h
      simp [hr, ih hm]

-- When there are no null values to skip, the iterators are at the first values.
theorem Pending.exists_follows (h : Pending it lists 0) (hs : SkipsNulls lists) :
    ∃ ws, Follows it ws ∧ (∀ w ∈ ws, w = w.reset) ∧ ws.map Wheel.items = lists.map cells := by
  induction it generalizing lists
  case nil =>
    cases lists
    case nil  => exact ⟨[], trivial, nofun, rfl⟩
    case cons => exact h.elim
  case cons rp rest ih =>
    cases lists
    case nil => exact h.elim
    case cons l ls =>
      obtain ⟨k, m, hr, _, hp, _, hm, he⟩ := h
      obtain ⟨hl, hlast, hmid, hs'⟩ := hs
      cases show k = 0 by omega
      cases show m = 0 by omega
      obtain ⟨ws, hf, hw, hi⟩ := ih hm hs'
      have hws : ws = [] ↔ ls = [] := by
        rw [←List.map_eq_nil_iff (f := Wheel.items), hi, List.map_eq_nil_iff]
      obtain ⟨x, s, hx, hxn⟩ := exists_withoutLeadingNulls hl
      have hc : cells l = (x :: s ++ [cfNullValue]) :: cells s := by
        rw [←cells_withoutLeadingNulls, hx]
        simp [cells, hxn]
      have ht : Turns (ws = []) (x :: s ++ [cfNullValue]) (cells s) := by
        by_cases hn : ls = []
        case pos => exact turns_of_not_isInfix hxn s (hx ▸ hlast hn) |>.imp fun _ => hws.mpr hn
        case neg => exact turns_of_not_mem_dropLast hxn (hx ▸ (hmid hn).right.left)
      refine ⟨.start (x :: s ++ [cfNullValue]) (cells s) :: ws, ?follows, ?start, ?items⟩
      case start => exact List.forall_mem_cons.mpr ⟨rfl, hw⟩
      case items => simp [Wheel.items, Wheel.start, hc, hi]
      case follows =>
        refine ⟨by simpa [hx, Wheel.start] using hp, ht, hf, ?_⟩
        by_cases hz : leadingNulls l = 0
        case pos =>
          refine .inl ⟨?_, ht⟩
          have hl := replicate_append_withoutLeadingNulls (l := l)
          rw [hz, hx, List.replicate_zero, List.nil_append] at hl
          simp [hr, pad, ←hl, Wheel.start]
        case neg =>
          refine .inr <| next_eq_none_of_rest fun w hw' => ?_
          have hn : ls ≠ [] := fun hc => by
            rw [hws.mpr hc] at hw'
            contradiction
          obtain ⟨hle, _, hone⟩ := hmid hn
          obtain ⟨l', hl', hit⟩ := List.mem_map.mp <| hi ▸ List.mem_map_of_mem hw'
          have hlen := hone (by omega) l' hl'
          rw [hw w hw']
          rw [hit] at hlen
          simpa [Wheel.items, Wheel.reset, Wheel.start] using hlen

theorem Pending.increment (h : Pending it lists (n + 1)) (hs : SkipsNulls lists) :
    ∃ it', incrementIterationContext it = (it', true) ∧ Pending it' lists n := by
  induction it generalizing lists n
  case nil =>
    cases lists
    case nil  => contradiction
    case cons => exact h.elim
  case cons rp rest ih =>
    cases lists
    case nil => exact h.elim
    case cons l ls =>
      obtain ⟨k, m, hr, hk, hp, hkm, hm, he⟩ := h
      obtain ⟨hl, _, hmid, hs'⟩ := hs
      obtain ⟨x, s, hx, hxn⟩ := exists_withoutLeadingNulls hl
      cases m
      case succ m =>
        obtain ⟨rest', hi, hp'⟩ := ih hm hs'
        have hkl := hkm (Nat.succ_ne_zero m)
        have ht : rp.statePtr = rp.rval.tail := by
          rw [hp, hr, hkl, replicate_append_withoutLeadingNulls]
          rfl
        obtain ⟨a, b, t, hab⟩ : ∃ a b t, rp.statePtr = a :: b :: t := by
          cases k
          case zero =>
            cases s
            case nil    => exact ⟨x, cfNullValue, [], by simp [hp, hx]⟩
            case cons y s => exact ⟨x, y, s ++ [cfNullValue], by simp [hp, hx]⟩
          case succ k =>
            cases k
            case zero   => exact ⟨cfNullValue, x, s ++ [cfNullValue], by simp [hp, hx]⟩
            case succ k => exact ⟨cfNullValue, cfNullValue, _, by rw [hp]; rfl⟩
        have hn := Pending.nullIterators hm (Nat.succ_ne_zero m)
        refine ⟨_, incrementIterationContext_of_turn hab ?_ hi, k, m, hr, hk, ht ▸ hp, fun _ => hkl,
          hp', by omega⟩
        simp only [CfEngine.nullIterators, List.any_cons, Bool.or_eq_true] at hn ⊢
        exact .inr hn
      case zero =>
        obtain ⟨ws, hf, _⟩ := Pending.exists_follows hm hs'
        have hn := hf.not_nullIterators
        cases k
        case zero => simp at he
        case succ k =>
          cases k
          case zero =>
            have hn' : CfEngine.nullIterators ({ rp with
                statePtr := x :: (s ++ [cfNullValue]) } :: rest) = false := by
              simp only [CfEngine.nullIterators, List.any_cons, Bool.or_eq_false_iff] at hn ⊢
              exact ⟨by simp [hxn], hn⟩
            have hi := incrementIterationContext_of_not_null (by simp [hp, hx]; rfl) hn'
            rw [not_endOfIteration_cons (by simp)] at hi
            exact ⟨_, hi, 0, 0, hr, Nat.zero_le _, by simp [hx], fun h => absurd rfl h, hm, by omega⟩
          case succ k =>
            have hls : ls = [] := by
              by_contra hc
              have := hmid hc
              omega
            subst hls
            cases rest
            case cons => exact hm.elim
            case nil =>
              have hp' : rp.statePtr = cfNullValue :: cfNullValue ::
                  (List.replicate k cfNullValue ++ withoutLeadingNulls l ++ [cfNullValue]) := hp
              have hi := incrementIterationContext_of_null hp' (by simp [CfEngine.nullIterators])
                (show incrementIterationContext [] = ([], false) from rfl)
              rw [not_endOfIteration_cons (by simp [hx]; omega)] at hi
              exact ⟨_, hi, k, 0, hr, by omega, rfl, fun h => absurd rfl h, hm, by omega⟩

theorem Pending.skipNullIterators (h : Pending it lists n) (hs : SkipsNulls lists) (rounds : Nat) :
    Pending (skipNullIterators rounds it) lists (n - rounds) := by
  induction rounds generalizing it n
  case zero           => exact h
  case succ rounds ih =>
    cases n
    case zero   =>
      have ⟨ws, hf, _⟩ := h.exists_follows hs
      simpa [CfEngine.skipNullIterators, hf.not_nullIterators] using h
    case succ n =>
      have ⟨it', hi, h'⟩ := h.increment hs
      rw [CfEngine.skipNullIterators, if_pos <| h.nullIterators <| Nat.succ_ne_zero n, hi, Nat.add_sub_add_right]
      exact ih h'

theorem Follows.not_endOfIteration {ws : List (Wheel (List CString))} (h : Follows it ws) :
    ¬(it ≠ [] ∧ endOfIteration it = true) := by
  intro ⟨hn, he⟩
  cases it
  case nil => contradiction
  case cons rp rest =>
    cases ws
    case nil => exact h.elim
    case cons w ws =>
      have ⟨hc, ht, _⟩ := h
      have ⟨x, y, s, _, hx⟩ := ht.exists_cons
      rw [not_endOfIteration_cons (by simp [hc, hx])] at he
      contradiction

theorem not_endOfIteration_newIterationContext (h : ∀ l ∈ lists, l ≠ []) :
    ¬(newIterationContext lists ≠ [] ∧ endOfIteration (newIterationContext lists) = true) := by
  intro ⟨hn, he⟩
  rw [newIterationContext_eq_map] at hn he
  cases lists
  case nil => contradiction
  case cons l ls =>
    have hl := h l List.mem_cons_self
    have := List.length_pos_iff.mpr hl
    rw [List.map_cons, not_endOfIteration_cons (by simp [hl]; omega)] at he
    contradiction

theorem SkipsNulls.ne_nil (h : SkipsNulls lists) : ∀ l ∈ lists, l ≠ [] := by
  induction lists
  case nil => nofun
  case cons l ls ih =>
    have ⟨hl, _, _, hs⟩ := h
    refine List.forall_mem_cons.mpr ⟨?_, ih hs⟩
    rintro rfl
    exact hl rfl

-- The iteration over lists whose null values it can skip.
theorem SkipsNulls.actsOnAll (hs : SkipsNulls lists)
    (hr : skipRounds lists ≤ cfNullCutoff + 2) : ActsOnCombinations lists := by
  have hp := (pending_newIterationContext hs).skipNullIterators hs (cfNullCutoff + 2)
  rw [Nat.sub_eq_zero_of_le hr] at hp
  have ⟨ws, hf, hw, hi⟩ := hp.exists_follows hs
  have ⟨seen, hv, _, hpos, hval⟩ := hf.exists_visits_tuples hw hi hp.map_rval
  refine ⟨seen, fun fuel hfuel => ?_, hval, hpos ▸ .refl _⟩
  simp only [expandPromiseAndDo, not_endOfIteration_newIterationContext hs.ne_nil,
    hf.not_endOfIteration, ite_false]
  exact hv fuel hfuel

end

section

variable {it it' : List Iterator} {lists : List (List CString)} {n : Nat}

theorem incrementIterationContext_of_endOfIteration (h : endOfIteration it = true) :
    incrementIterationContext it = (it, false) := by
  induction it
  case nil => rfl
  case cons rp rest ih =>
    simp only [endOfIteration, List.all_cons, Bool.and_eq_true, decide_eq_true_eq] at h
    have ih := ih h.right
    cases hp : rp.statePtr
    case nil         => simp [incrementIterationContext, hp]
    case cons _ tail =>
      cases tail
      case nil  => simp [incrementIterationContext, hp, ih]
      case cons => simp [hp] at h

-- The iteration ends after `n` increments.
def Exhausts : List Iterator → Nat → Prop
  | it, 0     => ∃ it', incrementIterationContext it = (it', false) ∧ endOfIteration it' = true
  | it, n + 1 => ∃ it', incrementIterationContext it = (it', true) ∧ Exhausts it' n

theorem Exhausts.of_endOfIteration (h : endOfIteration it = true) : Exhausts it 0 :=
  ⟨it, incrementIterationContext_of_endOfIteration h, h⟩

theorem Follows.exhausts {ws : List (Wheel (List CString))} (h : Follows it ws) :
    Exhausts it (later ws).length := by
  generalize hl : later ws = l
  induction l generalizing it ws
  case nil =>
    cases hn : next ws
    case none    => exact h.increment.left hn
    case some ws' => simp [later_of_next_eq_some hn] at hl
  case cons t l ih =>
    cases hn : next ws
    case none => simp [later_of_next_eq_none hn] at hl
    case some ws' =>
      have ⟨it', hi, h'⟩ := h.increment.right ws' hn
      have hl' := (List.cons.inj <| (later_of_next_eq_some hn).symm.trans hl).right
      exact ⟨it', hi, ih h' hl'⟩

theorem Pending.exhausts (h : Pending it lists n) (hs : SkipsNulls lists) :
    Exhausts it (n + (tuples <| lists.map cells).length - 1) := by
  induction n generalizing it
  case zero =>
    have ⟨ws, hf, hw, hi⟩ := h.exists_follows hs
    rw [←hi, tuples_eq_of_start hw]
    simpa using hf.exhausts
  case succ n ih =>
    have ⟨it', hi, h'⟩ := h.increment hs
    have hp := h.skipNullIterators hs (n + 1)
    rw [Nat.sub_self] at hp
    have ⟨ws, hf, hw, hi'⟩ := hp.exists_follows hs
    have hlen : (tuples <| lists.map cells).length ≠ 0 := by
      rw [←hi', tuples_eq_of_start hw]
      simp
    have he : n + 1 + (tuples <| lists.map cells).length - 1 =
        n + (tuples <| lists.map cells).length - 1 + 1 := by
      omega
    exact he ▸ ⟨it', hi, ih h'⟩

-- The iteration ends after `n` increments without leaving the null values.
def Blocks : List Iterator → Nat → Prop
  | it, 0     => nullIterators it = true ∧
    ∃ it', incrementIterationContext it = (it', false) ∧ endOfIteration it' = true
  | it, n + 1 => nullIterators it = true ∧
    ∃ it', incrementIterationContext it = (it', true) ∧ Blocks it' n

theorem Blocks.exhausts (h : Blocks it n) : Exhausts it n := by
  induction n generalizing it
  case zero => exact h.right
  case succ n ih =>
    have ⟨it', hi, h'⟩ := h.right
    exact ⟨it', hi, ih h'⟩

theorem nullIterators_null_cons {rval s : List CString} :
    nullIterators (⟨rval, cfNullValue :: s⟩ :: it) = true := by
  simp [nullIterators]

-- Once the wheels after it have come to their end, a wheel of null values takes two steps at a time.
theorem blocks_of_end {rval : List CString} : (q : Nat) → {it it' : List Iterator} →
    incrementIterationContext it = (it', false) → endOfIteration it' = true →
    Blocks (⟨rval, List.replicate (q + 2) cfNullValue⟩ :: it) (q / 2)
  | q, it, it', hi, he => by
    have hi := incrementIterationContext_of_null
      (show Iterator.statePtr ⟨rval, List.replicate (q + 2) cfNullValue⟩ =
        cfNullValue :: cfNullValue :: List.replicate q cfNullValue from rfl)
      nullIterators_null_cons hi
    match q with
    | 0     =>
      have he : endOfIteration (⟨rval, []⟩ :: it') = true := by simpa [endOfIteration] using he
      exact ⟨nullIterators_null_cons, _, hi.trans <| by rw [List.replicate_zero, he]; rfl, he⟩
    | 1     =>
      have he : endOfIteration (⟨rval, [cfNullValue]⟩ :: it') = true := by
        simpa [endOfIteration] using he
      exact ⟨nullIterators_null_cons, _, hi.trans <| by rw [List.replicate_one, he]; rfl, he⟩
    | q + 2 =>
      have ih : Blocks (⟨rval, List.replicate (q + 2) cfNullValue⟩ :: it') (q / 2) :=
        blocks_of_end q (incrementIterationContext_of_endOfIteration he) he
      rw [not_endOfIteration_cons (by simp)] at hi
      have hq : (q + 2) / 2 = q / 2 + 1 := by omega
      exact hq ▸ ⟨nullIterators_null_cons, _, hi, ih⟩

theorem Exhausts.null_cons {q : Nat} {rval : List CString} (h : Exhausts it n)
    (hr : rval.tail = List.replicate (q + 2) cfNullValue) :
    Blocks (⟨rval, List.replicate (q + 2) cfNullValue⟩ :: it) (n + q / 2) := by
  induction n generalizing it
  case zero =>
    have ⟨it', hi, he⟩ := h
    exact (Nat.zero_add _).symm ▸ blocks_of_end q hi he
  case succ n ih =>
    have ⟨it', hi, h'⟩ := h
    have hi := incrementIterationContext_of_turn
      (show Iterator.statePtr ⟨rval, List.replicate (q + 2) cfNullValue⟩ =
        cfNullValue :: cfNullValue :: List.replicate q cfNullValue from rfl)
      nullIterators_null_cons hi
    have hn : n + 1 + q / 2 = n + q / 2 + 1 := by omega
    rw [hn]
    exact ⟨nullIterators_null_cons, _, hi, hr ▸ ih h'⟩

theorem skipNullIterators_of_endOfIteration {rounds : Nat} (h : endOfIteration it = true) :
    skipNullIterators rounds it = it := by
  induction rounds
  case zero => rfl
  case succ rounds ih => simp [skipNullIterators, incrementIterationContext_of_endOfIteration h, ih]

theorem Blocks.endOfIteration {rounds : Nat} (h : Blocks it n) (hn : n < rounds) :
    endOfIteration (skipNullIterators rounds it) = true := by
  induction n generalizing it rounds
  case zero =>
    have ⟨hi, it', he, hend⟩ := h
    have ⟨rounds, hr⟩ := Nat.exists_eq_succ_of_ne_zero <| Nat.ne_zero_of_lt hn
    simp [hr, skipNullIterators, hi, he, skipNullIterators_of_endOfIteration hend, hend]
  case succ n ih =>
    have ⟨hi, it', he, h'⟩ := h
    have ⟨rounds, hr⟩ := Nat.exists_eq_succ_of_ne_zero <| Nat.ne_zero_of_lt hn
    have := ih h' <| Nat.lt_of_succ_lt_succ <| hr ▸ hn
    simpa [hr, skipNullIterators, hi, he] using this

theorem newIterationContext_cons {l : List CString} {ls : List (List CString)} (h : l ≠ []) :
    newIterationContext (l :: ls) = ⟨pad l, l ++ [cfNullValue]⟩ :: newIterationContext ls := by
  simp [newIterationContext_eq_map, h]

theorem blocks_newIterationContext {l : List CString} {ls : List (List CString)} (hl : l ≠ [])
    (hn : ∀ x ∈ l, x = cfNullValue) (h : Exhausts (newIterationContext ls) n) :
    Blocks (newIterationContext (l :: ls)) (n + (l.length + 1) / 2 - 1) := by
  have ⟨q, hq⟩ := Nat.exists_eq_succ_of_ne_zero <| mt List.eq_nil_of_length_eq_zero hl
  have hr : l ++ [cfNullValue] = List.replicate (q + 2) cfNullValue := by
    rw [List.replicate_succ', List.eq_replicate_iff.mpr ⟨hq, hn⟩]
  have hs : n + (l.length + 1) / 2 - 1 = n + q / 2 := by omega
  rw [newIterationContext_cons hl, hr, hs]
  exact h.null_cons <| by simp [pad, hr]

theorem endOfIteration_newIterationContext (h : ∀ l ∈ lists, l = []) :
    endOfIteration (newIterationContext lists) = true := by
  simp only [newIterationContext_eq_map, endOfIteration, List.all_map, List.all_eq_true]
  intro l hl
  simp [h l hl]

theorem Exhaustible.exhausts (h : Exhaustible lists n) : Exhausts (newIterationContext lists) n := by
  induction h
  case values hs     => exact (pending_newIterationContext hs).exhausts hs
  case null hl hn _ ih => exact (blocks_newIterationContext hl hn ih).exhausts
  case empty h       => exact .of_endOfIteration <| endOfIteration_newIterationContext h

theorem map_rval_skipNullIterators {rounds : Nat} :
    (skipNullIterators rounds it).map Iterator.rval = it.map Iterator.rval := by
  induction rounds generalizing it
  case zero => rfl
  case succ rounds ih =>
    simp only [skipNullIterators]
    split
    case isTrue  => exact ih.trans <| map_rval_incrementIterationContext it
    case isFalse => rfl

theorem expandPromiseAndDo_eq_nil {fuel : Nat} (hn : lists ≠ [])
    (h : endOfIteration (skipNullIterators (cfNullCutoff + 2) <| newIterationContext lists) = true) :
    expandPromiseAndDo fuel lists = some [] := by
  have hs : skipNullIterators (cfNullCutoff + 2) (newIterationContext lists) ≠ [] := by
    intro hc
    have hm : (skipNullIterators (cfNullCutoff + 2) (newIterationContext lists)).map Iterator.rval =
        (newIterationContext lists).map Iterator.rval := map_rval_skipNullIterators
    rw [hc, newIterationContext_eq_map, List.map_map] at hm
    exact hn <| List.map_eq_nil_iff.mp hm.symm
  simp only [expandPromiseAndDo, if_pos (And.intro hs h)]
  split <;> rfl

theorem actsOnCombinations_nil (h : ∃ l ∈ lists, ∀ x ∈ l, x = cfNullValue)
    (hf : ∀ fuel, expandPromiseAndDo fuel lists = some []) : ActsOnCombinations lists := by
  obtain ⟨l, hl, hn⟩ := h
  have hp : valuePositions l = [] := by
    rw [←map_cellPosition_cells, List.map_eq_nil_iff]
    clear hl
    induction l
    case nil => rfl
    case cons x s ih =>
      obtain ⟨hx, hn⟩ := List.forall_mem_cons.mp hn
      simp [cells, hx, ih hn]
  have ht : tuples (lists.map valuePositions) = [] :=
    tuples_eq_nil <| hp ▸ List.mem_map_of_mem hl
  exact ⟨[], fun fuel _ => hf fuel, List.forall_mem_nil _, ht ▸ .nil⟩

end

-- The promise is acted on once for each combination of values if the null values in the lists are at
-- places where they are skipped, before the cutoff is reached.
theorem SkipsInTime.actsOnCombinations {lists : List (List CString)} (h : SkipsInTime lists) :
    ActsOnCombinations lists := by
  cases h
  case inl h =>
    cases lists
    case nil => exact SkipsNulls.actsOnAll trivial (Nat.zero_le _)
    case cons l ls =>
      have hl := h l List.mem_cons_self
      refine actsOnCombinations_nil ⟨l, List.mem_cons_self, by simp [hl]⟩ fun fuel => ?_
      have hend := endOfIteration_newIterationContext h
      exact expandPromiseAndDo_eq_nil nofun <| by rwa [skipNullIterators_of_endOfIteration hend]
  case inr h =>
    cases h
    case inl h => exact h.left.actsOnAll h.right
    case inr h =>
      have ⟨l, ls, n, he, hl, hn, hx, hc⟩ := h
      subst he
      refine actsOnCombinations_nil ⟨l, List.mem_cons_self, hn⟩ fun fuel => ?_
      have hb := blocks_newIterationContext hl hn hx.exhausts
      have := List.length_pos_iff.mpr hl
      exact expandPromiseAndDo_eq_nil nofun <| hb.endOfIteration (by omega)

theorem expandPromiseAndDo_of_le {k n : Nat} {lists : List (List CString)}
    {acts : List (List Iterator)} (hk : k ≤ n) (h : expandPromiseAndDo k lists = some acts) :
    expandPromiseAndDo n lists = some acts := by
  simp only [expandPromiseAndDo] at h ⊢
  split
  case isTrue hc => simpa only [if_pos hc] using h
  case isFalse hc =>
    rw [if_neg hc] at h
    split
    case isTrue hc => simpa only [if_pos hc] using h
    case isFalse hc => exact visits_of_le hk <| by simpa only [if_neg hc] using h

end CfEngine
