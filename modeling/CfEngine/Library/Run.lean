import Mathlib.Data.List.Infix

-- Runs of a deterministic system, given by its step function.

namespace Run

variable {σ ω : Type*} {step : σ → ω → σ} {P Q C : σ → Prop} {G H : σ → ω → Prop} {s : σ}
  {ops : List ω}

-- The property `Q` holds in every state of the run, including the first and the last one.
def Always (Q : σ → Prop) (step : σ → ω → σ) : σ → List ω → Prop
  | s, []        => Q s
  | s, op :: ops => Q s ∧ Always Q step (step s op) ops

-- Every step of the run meets the condition `G` on the operation and the state before it.
def EveryStep (G : σ → ω → Prop) (step : σ → ω → σ) : σ → List ω → Prop
  | _, []        => True
  | s, op :: ops => G s op ∧ EveryStep G step (step s op) ops

instance EveryStep.decidable [∀ s op, Decidable (G s op)] :
    (s : σ) → (ops : List ω) → Decidable (EveryStep G step s ops)
  | _, []        => inferInstanceAs <| Decidable True
  | s, op :: ops => @instDecidableAnd _ _ _ <| EveryStep.decidable (step s op) ops

theorem Always.head : {ops : List ω} → Always Q step s ops → Q s
  | [], h     => h
  | _ :: _, h => h.left

theorem always_iff_forall_prefix :
    Always Q step s ops ↔ ∀ p, p <+: ops → Q (p.foldl step s) := by
  induction ops generalizing s
  case nil => simp [Always]
  case cons op ops ih =>
    simp only [Always, ih]
    constructor
    case mp =>
      intro ⟨h, ht⟩ p hp
      cases p
      case nil       => exact h
      case cons o p' =>
        have ⟨ho, hp'⟩ := List.cons_prefix_cons.mp hp
        exact ho ▸ ht p' hp'
    case mpr =>
      intro h
      exact ⟨h [] List.nil_prefix, fun p hp => h (op :: p) <| List.cons_prefix_cons.mpr ⟨rfl, hp⟩⟩

theorem Always.last (h : Always Q step s ops) : Q (ops.foldl step s) :=
  always_iff_forall_prefix.mp h ops List.prefix_rfl

-- An invariant `P` that every good step preserves.
theorem EveryStep.always (h : EveryStep G step s ops) (h₀ : P s)
    (hs : ∀ s op, P s → G s op → P (step s op)) : Always P step s ops := by
  induction ops generalizing s
  case nil             => exact h₀
  case cons op ops ih => exact ⟨h₀, ih h.right <| hs s op h₀ h.left⟩

theorem EveryStep.and (hg : EveryStep G step s ops) (hh : EveryStep H step s ops) :
    EveryStep (fun s op => G s op ∧ H s op) step s ops := by
  induction ops generalizing s
  case nil            => trivial
  case cons op ops ih => exact ⟨⟨hg.left, hh.left⟩, ih hg.right hh.right⟩

theorem everyStep_of_forall (h : ∀ s op, G s op) : EveryStep G step s ops := by
  induction ops generalizing s
  case nil             => trivial
  case cons op ops ih => exact ⟨h s op, ih⟩

theorem everyStep_of_forall_mem (h : ∀ op ∈ ops, ∀ s, G s op) : EveryStep G step s ops := by
  induction ops generalizing s
  case nil             => trivial
  case cons op ops ih => exact ⟨h op List.mem_cons_self s, ih fun o ho => h o <| List.mem_cons_of_mem _ ho⟩

theorem Always.imp (h : Always P step s ops) (hq : ∀ s, P s → Q s) : Always Q step s ops := by
  induction ops generalizing s
  case nil             => exact hq s h
  case cons op ops ih => exact ⟨hq s h.left, ih h.right⟩

theorem Always.everyStep (h : Always C step s ops) :
    EveryStep (fun s op => C s ∧ C (step s op)) step s ops := by
  induction ops generalizing s
  case nil             => trivial
  case cons op ops ih => exact ⟨⟨h.left, h.right.head⟩, ih h.right⟩

-- If the good steps preserve an invariant `P` that entails `Q`, and a step that is not good leads from
-- `P` to a state without `Q`, then `Q` holds throughout a run exactly if all of its steps are good.
-- The condition `H` is known to hold of all steps of the run.
theorem always_iff_everyStep (h₀ : P s) (hh : EveryStep H step s ops) (hq : ∀ s, P s → Q s)
    (hs : ∀ s op, P s → H s op → G s op → P (step s op))
    (hb : ∀ s op, P s → H s op → ¬G s op → ¬Q (step s op)) :
    Always Q step s ops ↔ EveryStep G step s ops := by
  induction ops generalizing s
  case nil => exact iff_of_true (hq s h₀) trivial
  case cons op ops ih =>
    by_cases hg : G s op
    case pos =>
      have ih := ih (hs s op h₀ hh.left hg) hh.right
      simp only [Always, EveryStep, ih, hg, hq s h₀]
    case neg =>
      apply iff_of_false
      · exact fun h => hb s op h₀ hh.left hg h.right.head
      · exact fun h => hg h.left

-- Two conditions on the steps are the same for a run if they are the same for each step from a state with an
-- invariant, which the steps preserve.
theorem everyStep_iff_everyStep (h₀ : P s) (hs : ∀ s op, P s → G s op → P (step s op))
    (hg : ∀ s op, P s → (G s op ↔ H s op)) : EveryStep G step s ops ↔ EveryStep H step s ops := by
  induction ops generalizing s
  case nil            => exact Iff.rfl
  case cons op ops ih =>
    simp only [EveryStep, ← hg s op h₀]
    exact and_congr_right fun h => ih <| hs s op h₀ h

theorem EveryStep.append {ops' : List ω} :
    EveryStep G step s (ops ++ ops') ↔ EveryStep G step s ops ∧ EveryStep G step (ops.foldl step s) ops' := by
  induction ops generalizing s
  case nil            => simp [EveryStep]
  case cons op ops ih => simp only [List.cons_append, EveryStep, ih, List.foldl_cons, and_assoc]

theorem everyStep_iff_forall_prefix :
    EveryStep G step s ops ↔ ∀ p op, p ++ [op] <+: ops → G (p.foldl step s) op := by
  induction ops generalizing s
  case nil            => simp [EveryStep]
  case cons o ops ih =>
    simp only [EveryStep, ih]
    constructor
    case mp =>
      intro ⟨h, ht⟩ p op hp
      cases p
      case nil       => exact (List.cons_prefix_cons.mp hp).left ▸ h
      case cons o p' =>
        have ⟨ho, hp'⟩ := List.cons_prefix_cons.mp hp
        exact ho ▸ ht p' op hp'
    case mpr =>
      intro h
      refine ⟨h [] o <| List.cons_prefix_cons.mpr ⟨rfl, List.nil_prefix⟩, fun p op hp => ?_⟩
      exact h (o :: p) op <| List.cons_prefix_cons.mpr ⟨rfl, hp⟩

end Run
