import Mathlib.Data.List.Basic

-- Recursive descent over the positions of an input. A parser calls itself only at positions after
-- the one it starts at, so that there is one parser that satisfies its recursive equation.

namespace Descent

variable {α : Type*}

-- A failed parse has no result. Its position is that of the error.
structure Result (α : Type*) where
  result   : Option α
  position : Nat
  deriving DecidableEq

def fail (start : Nat) : Result α where
  result   := none
  position := start

-- A parse that succeeds has read something, and not beyond the end of the input.
def Advances (stop : Nat) (parse : Nat → Result α) : Prop :=
  ∀ start a, (parse start).result = some a →
    start < (parse start).position ∧ (parse start).position ≤ stop

-- A parse that starts in the input ends there, whether it succeeds or not.
def Confined (stop : Nat) (parse : Nat → Result α) : Prop :=
  ∀ start ≤ stop, start ≤ (parse start).position ∧ (parse start).position ≤ stop

-- The body of a recursive parser, given the parser that it calls.
structure Guarded (stop : Nat) (body : (Nat → Result α) → Nat → Result α) : Prop where
  advances : ∀ parse, Advances stop parse → Advances stop (body parse)
  congr    : ∀ parse parse' start, Advances stop parse → Advances stop parse' →
    (∀ i, start < i → i ≤ stop → parse i = parse' i) → body parse start = body parse' start

-- The nesting of calls is bounded by the fuel.
def iterate (body : (Nat → Result α) → Nat → Result α) : (fuel : Nat) → Nat → Result α
  | 0        => fail
  | fuel + 1 => body (iterate body fuel)

def fix (stop : Nat) (body : (Nat → Result α) → Nat → Result α) (start : Nat) : Result α :=
  iterate body (stop - start + 1) start

-- A parser that can get stuck, and does so when the nesting of its calls exceeds the fuel.
def attempt (body : (Nat → Option (Result α)) → Nat → Option (Result α)) : (fuel : Nat) → Nat → Option (Result α)
  | 0        => fun _ => none
  | fuel + 1 => body (attempt body fuel)

section

variable {stop start fuel fuel' : Nat} {body body' : (Nat → Result α) → Nat → Result α}

theorem advances_fail : Advances stop (fail (α := α)) :=
  fun _ _ h => by contradiction

-- What a call establishes whenever the calls it makes establish it holds of the parser.
theorem fix_invariant {I : Nat → Result α → Prop} (hf : ∀ start, I start (fail start))
    (hb : ∀ parse, (∀ start, I start (parse start)) → ∀ start, I start (body parse start)) :
    I start (fix stop body start) := by
  suffices h : ∀ fuel start, I start (iterate body fuel start) from h _ _
  intro fuel
  induction fuel
  case zero         => exact hf
  case succ fuel ih => exact hb _ ih

namespace Guarded

theorem advances_iterate (h : Guarded stop body) : Advances stop (iterate body fuel) := by
  induction fuel
  case zero         => exact advances_fail
  case succ fuel ih => exact h.advances _ ih

theorem advances_fix (h : Guarded stop body) : Advances stop (fix stop body) :=
  fun start a hs => h.advances_iterate start a hs

-- The fuel is irrelevant if there is enough for the rest of the input.
theorem iterate_congr (h : Guarded stop body) (hf : stop - start < fuel)
    (hf' : stop - start < fuel') : iterate body fuel start = iterate body fuel' start := by
  induction fuel generalizing fuel' start
  case zero => contradiction
  case succ fuel ih =>
    cases fuel'
    case zero => contradiction
    case succ fuel' =>
      apply h.congr _ _ _ h.advances_iterate h.advances_iterate
      intro i hi hs
      exact ih (by omega) (by omega)

theorem fix_eq (h : Guarded stop body) : fix stop body start = body (fix stop body) start := by
  apply h.congr _ _ _ h.advances_iterate h.advances_fix
  intro i hi hs
  exact h.iterate_congr (by omega) (by omega)

theorem confined_fix (h : Guarded stop body)
    (hb : ∀ parse, Advances stop parse → Confined stop parse → Confined stop (body parse)) :
    Confined stop (fix stop body) := by
  suffices hc : ∀ fuel, Confined stop (iterate body fuel) from fun start hs => hc _ start hs
  intro fuel
  induction fuel
  case zero         => exact fun start hs => ⟨Nat.le_refl start, hs⟩
  case succ fuel ih => exact hb _ h.advances_iterate ih

-- A parser does not get stuck if its body, which may rely on the calls behind the start, does not.
theorem attempt_eq (h : Guarded stop body) {low : Nat} {body' : (Nat → Option (Result α)) → Nat → Option (Result α)}
    (hb : ∀ parse' start, low ≤ start → start ≤ stop →
      (∀ i, start < i → i ≤ stop → parse' i = some (fix stop body i)) →
      body' parse' start = some (body (fix stop body) start))
    (hl : low ≤ start) (hs : start ≤ stop) (hf : stop - start < fuel) :
    attempt body' fuel start = some (fix stop body start) := by
  induction fuel generalizing start
  case zero         => contradiction
  case succ fuel ih =>
    rw [attempt, h.fix_eq]
    exact hb _ start hl hs fun i hi hi' => ih (by omega) hi' (by omega)

-- Two parsers agree if their bodies do from the start on.
theorem fix_congr (h : Guarded stop body) (h' : Guarded stop body')
    (hb : ∀ parse i, Advances stop parse → start ≤ i → body parse i = body' parse i) :
    fix stop body start = fix stop body' start := by
  generalize hn : stop - start = n
  induction n using Nat.strongRecOn generalizing start
  case ind n ih =>
    calc
      fix stop body start = body' (fix stop body) start := by
        rw [h.fix_eq, hb _ _ h.advances_fix <| Nat.le_refl _]
      _ = body' (fix stop body') start := by
        apply h'.congr _ _ _ h.advances_fix h'.advances_fix
        intro i hi hs
        exact ih (stop - i) (by omega) (fun p j hp hj => hb p j hp <| by omega) rfl
      _ = fix stop body' start := h'.fix_eq.symm

end Guarded
end

section

variable {χ : Type*} {input t u : List χ} {c : χ} {i start : Nat}

-- The text that a successful parse has read belongs to the language.
def Sound (input : List χ) (lang : List χ → α → Prop) (start : Nat) (r : Result α) : Prop :=
  ∀ a, r.result = some a →
    ∃ t u, input.drop start = t ++ u ∧ r.position = start + t.length ∧ lang t a

theorem drop_of_append (h : input.drop start = t ++ u) : input.drop (start + t.length) = u := by
  rw [←List.drop_drop, h, List.drop_left]

theorem drop_of_cons (h : input.drop start = c :: u) : input.drop (start + 1) = u :=
  drop_of_append (t := [c]) h

theorem getElem?_of_cons (h : input.drop start = c :: u) : input[start]? = some c := by
  rw [←List.head?_drop, h, List.head?_cons]

theorem drop_of_getElem? (h : input[start]? = some c) :
    input.drop start = c :: input.drop (start + 1) := by
  rw [←List.head?_drop, List.head?_eq_some_iff] at h
  have ⟨u, hu⟩ := h
  rw [hu, drop_of_cons hu]

theorem add_length_of_append (h : input.drop start = t ++ u) (hs : start ≤ input.length) :
    start + t.length + u.length = input.length := by
  have := congrArg List.length h
  simp only [List.length_drop, List.length_append] at this
  omega

end
end Descent
