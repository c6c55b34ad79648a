import Mathlib.Algebra.GroupWithZero.Nat
import Mathlib.Data.Fin.Basic
import Mathlib.Data.Nat.Find
import Mathlib.Logic.Function.Basic
import Mathlib.Tactic.SplitIfs

-- Linear probing on a ring of `n` slots.

namespace Probing

variable {n : Nat} {β κ : Type*}

-- The number of steps from `b` to `i` when walking upwards around the ring.
def dist (b i : Fin n) : Nat :=
  (i - b).val

theorem dist_eq (b i : Fin n) :
    dist b i = if b.val ≤ i.val then i.val - b.val else i.val + n - b.val := by
  have hi := i.isLt
  have hb := b.isLt
  simp only [dist, Fin.sub_def]
  split
  case isTrue h =>
    rw [show n - b.val + i.val = i.val - b.val + n by omega, Nat.add_mod_right]
    exact Nat.mod_eq_of_lt (by omega)
  case isFalse h =>
    rw [Nat.mod_eq_of_lt (by omega)]
    omega

theorem dist_lt (b i : Fin n) : dist b i < n :=
  (i - b).isLt

theorem dist_inj {b i j : Fin n} (h : dist b i = dist b j) : i = j := by
  have hi := i.isLt
  have hj := j.isLt
  have hb := b.isLt
  simp only [dist_eq] at h
  ext
  split at h <;> split at h <;> omega

@[simp]
theorem dist_self (b : Fin n) : dist b b = 0 := by
  simp [dist_eq]

section

variable [NeZero n]

theorem val_succ (i : Fin n) : (i + 1).val = if i.val + 1 = n then 0 else i.val + 1 := by
  have hi := i.isLt
  rw [Fin.val_add, Fin.val_one', Nat.add_mod_mod]
  split
  case isTrue h  => simp [h]
  case isFalse h => exact Nat.mod_eq_of_lt (by omega)

theorem dist_succ {b i : Fin n} (h : i + 1 ≠ b) : dist b (i + 1) = dist b i + 1 := by
  have hi := i.isLt
  have hb := b.isLt
  have hv := val_succ i
  replace h : (i + 1).val ≠ b.val := (h <| Fin.ext ·)
  rw [hv] at h
  rw [dist_eq, dist_eq, hv]
  split_ifs at h ⊢ <;> omega

theorem dist_last {b i : Fin n} (h : i + 1 = b) : dist b i = n - 1 := by
  have hi := i.isLt
  have hv := val_succ i
  simp only [dist_eq, ←h, hv]
  split <;> split <;> omega

-- The loop `do { body } while (i != bucket)` that advances `i` by one slot each round. The body
-- yields a value when it leaves the loop.
def walk (body : Fin n → Option β) (bucket : Fin n) : Option β :=
  go n bucket
where
  go : Nat → Fin n → Option β
    | 0, _     => none
    | k + 1, i =>
      match body i with
      | some r => some r
      | none   => if i + 1 = bucket then none else go k (i + 1)

variable {body : Fin n → Option β} {b i : Fin n} {r : β}

theorem walk.go_eq_of_first {k : Nat} {j : Fin n} (hk : n ≤ dist b j + k)
    (hj : dist b j ≤ dist b i) (hr : body i = some r)
    (hf : ∀ l, dist b j ≤ dist b l → dist b l < dist b i → body l = none) :
    walk.go body b k j = some r := by
  induction k generalizing j
  case zero =>
    have := dist_lt b j
    omega
  case succ k ih =>
    simp only [go]
    by_cases he : dist b j = dist b i
    case pos => simp [dist_inj he, hr]
    case neg =>
      have hlt : dist b j < dist b i := by omega
      have hne : j + 1 ≠ b := fun hc => by
        have := dist_last hc
        have := dist_lt b i
        omega
      have hs := dist_succ hne
      simp only [hf j le_rfl hlt, hne, if_false]
      exact ih (by omega) (by omega) (fun l h₁ h₂ => hf l (by omega) h₂)

-- The loop yields what the body yields at the first slot, in walking order, where it leaves.
theorem walk_eq_of_first (hr : body i = some r) (hf : ∀ j, dist b j < dist b i → body j = none) :
    walk body b = some r :=
  walk.go_eq_of_first (by simp) (by simp) hr (fun l _ => hf l)

theorem walk.go_none {k : Nat} {j : Fin n} (h : ∀ l, body l = none) :
    walk.go body b k j = none := by
  induction k generalizing j <;> simp_all [go]

theorem walk_eq_none (h : ∀ i, body i = none) : walk body b = none :=
  walk.go_none h

theorem walk.go_some {k : Nat} {j : Fin n} (h : walk.go body b k j = some r) :
    ∃ i, body i = some r := by
  induction k generalizing j
  case zero => contradiction
  case succ k ih =>
    simp only [go] at h
    split at h
    case h_1 hj => exact ⟨j, hj.trans h⟩
    case h_2 =>
      split at h
      case isTrue  => contradiction
      case isFalse => exact ih h

theorem exists_of_walk_eq_some (h : walk body b = some r) : ∃ i, body i = some r :=
  walk.go_some h

end

theorem exists_first_of_exists {p : Fin n → Prop} (b : Fin n) (h : ∃ i, p i) :
    ∃ i, p i ∧ ∀ j, dist b j < dist b i → ¬p j := by
  classical
  have hp : ∃ d, ∃ i, dist b i = d ∧ p i := let ⟨i, hi⟩ := h; ⟨_, i, rfl, hi⟩
  have ⟨i, hd, hi⟩ := Nat.find_spec hp
  refine ⟨i, hi, fun j hj hpj => ?_⟩
  exact Nat.find_min hp (hd ▸ hj) ⟨j, rfl, hpj⟩

-- The slots of an open-addressing table, by the key each of them holds: every key is reachable from
-- its home slot without crossing a free slot, and no key is held twice.
structure Probed (home : κ → Fin n) (keys : Fin n → Option κ) : Prop where
  reach  {i j k} : keys i = some k → dist (home k) j < dist (home k) i → keys j ≠ none
  unique {i j k} : keys i = some k → keys j = some k → i = j

-- Slot `i` lies on the path from the home slot of the key in some other slot to that slot.
def Crossed (home : κ → Fin n) (keys : Fin n → Option κ) (i : Fin n) : Prop :=
  ∃ j k, keys j = some k ∧ dist (home k) i < dist (home k) j

namespace Probed

variable {home : κ → Fin n} {keys : Fin n → Option κ} {i : Fin n} {k : κ}

theorem empty (home : κ → Fin n) : Probed home (fun _ => none) where
  reach h  := nomatch h
  unique h := nomatch h

theorem insert (p : Probed home keys) (hf : ∀ j, dist (home k) j < dist (home k) i → keys j ≠ none)
    (hk : ∀ j, keys j ≠ some k) : Probed home (Function.update keys i (some k)) where
  reach {j l k'} hj hl := by
    by_cases hli : l = i
    case pos => simp [hli]
    case neg =>
      simp only [Function.update_of_ne hli]
      by_cases hji : j = i
      case pos =>
        subst hji
        simp only [Function.update_self, Option.some.injEq] at hj
        subst hj
        exact hf l hl
      case neg => exact p.reach (by simpa [hji] using hj) hl
  unique {j l k'} hj hl := by
    by_cases hji : j = i <;> by_cases hli : l = i
    case pos => exact hji.trans hli.symm
    case neg =>
      simp_all
    case pos =>
      simp_all
    case neg =>
      exact p.unique (by simpa [hji] using hj) (by simpa [hli] using hl)

theorem erase (p : Probed home keys) (hc : ¬Crossed home keys i) :
    Probed home (Function.update keys i none) where
  reach {j l k'} hj hl := by
    have hji : j ≠ i := by rintro rfl; simp at hj
    simp only [Function.update_of_ne hji] at hj
    have hli : l ≠ i := by rintro rfl; exact hc ⟨j, k', hj, hl⟩
    simpa [hli] using p.reach hj hl
  unique {j l k'} hj hl := by
    have hji : j ≠ i := by rintro rfl; simp at hj
    have hli : l ≠ i := by rintro rfl; simp at hl
    exact p.unique (by simpa [hji] using hj) (by simpa [hli] using hl)

end Probed
end Probing
