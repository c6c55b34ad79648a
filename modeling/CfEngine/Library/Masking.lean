import Mathlib.Order.BooleanAlgebra.Basic
import Mathlib.Data.List.Basic
import Mathlib.Tactic.Basic

-- Changes that keep a part of something and add another one. They are closed under composition, and a
-- change that is made twice has the effect of one.

structure Masking (α : Type*) where
  keep : α
  set  : α

namespace Masking

variable {α : Type*} [DistribLattice α]

def apply (m : Masking α) (x : α) : α :=
  m.set ⊔ m.keep ⊓ x

-- The second change after the first one.
def comp (m m' : Masking α) : Masking α where
  keep := m.keep ⊓ m'.keep
  set  := m.set ⊔ m.keep ⊓ m'.set

theorem comp_apply (m m' : Masking α) (x : α) : (m.comp m').apply x = m.apply (m'.apply x) := by
  unfold apply comp
  rw [inf_sup_left, sup_assoc, inf_assoc]

theorem apply_apply (m : Masking α) (x : α) : m.apply (m.apply x) = m.apply x := by
  unfold apply
  rw [inf_sup_left, ← inf_assoc, inf_idem, ← sup_assoc, sup_of_le_left (inf_le_right : m.keep ⊓ m.set ≤ m.set)]

section
variable [BoundedOrder α]

def same : Masking α where
  keep := ⊤
  set  := ⊥

@[simp] theorem same_apply (x : α) : same.apply x = x := by
  rw [apply, same, top_inf_eq, bot_sup_eq]

def only (a : α) : Masking α where
  keep := ⊥
  set  := a

@[simp] theorem only_apply (a x : α) : (only a).apply x = a := by
  rw [apply, only, bot_inf_eq, sup_bot_eq]

end
end Masking

-- Switches that are set and cleared one after another, against one that is set by all of them and then cleared by all.

structure Switch where
  set      : Bool
  clear    : Bool
  disjoint : (set && clear) = false

namespace Switch

def apply (s : Switch) (b : Bool) : Bool :=
  (b || s.set) && !s.clear

def run (l : List Switch) (b : Bool) : Bool :=
  l.foldl (fun b s => s.apply b) b

def sets (l : List Switch) : Bool :=
  l.any set

def clears (l : List Switch) : Bool :=
  l.any clear

-- What a switch clears is not set by the later ones, or it is cleared again.
def Settled : List Switch → Prop
  | []     => True
  | s :: l => (s.clear && sets l && !clears l) = false ∧ Settled l

variable {s : Switch} {l : List Switch} {b : Bool}

@[simp] theorem sets_cons : sets (s :: l) = (s.set || sets l) :=
  List.any_cons

@[simp] theorem clears_cons : clears (s :: l) = (s.clear || clears l) :=
  List.any_cons

theorem settled_of_clears_eq_false (h : clears l = false) : Settled l := by
  induction l
  case nil         => trivial
  case cons s l ih =>
    rw [clears_cons, Bool.or_eq_false_iff] at h
    refine ⟨?_, ih h.right⟩
    rw [h.left]
    rfl

theorem run_eq_iff : run l b = ((b || sets l) && !clears l) ↔ Settled l := by
  induction l generalizing b
  case nil         => simp [run, sets, clears, Settled]
  case cons s l ih =>
    have hrun : run (s :: l) b = run l (s.apply b) := rfl
    have ih := @ih (s.apply b)
    rw [hrun, Settled, ←ih, sets_cons, clears_cons]
    cases hl : clears l
    case true  => simp
    case false =>
      have hsettled := ih.mpr <| settled_of_clears_eq_false hl
      rw [hl] at hsettled
      rw [hsettled, apply]
      have hdisjoint := s.disjoint
      revert hdisjoint
      cases s.clear <;> cases s.set <;> cases sets l <;> cases b <;> decide

end Switch
