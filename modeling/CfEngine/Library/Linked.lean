import Mathlib.Logic.Function.Basic
import Mathlib.Data.List.Nodup

-- Cells in a memory that are linked both ways.

structure Cell (α : Type*) where
  payload  : α
  next     : Option Nat
  previous : Option Nat

abbrev Cells (α : Type*) := Nat → Option (Cell α)

namespace Cells

open Function (update)

variable {α : Type*} {cells cells' : Cells α} {p p' n n' : Option Nat} {a b : Nat} {as bs : List Nat}

-- The addresses are those of cells that follow each other, from the one after `p` up to the one before `n`.
def Linked (cells : Cells α) : Option Nat → List Nat → Option Nat → Prop
  | _, [], _      => True
  | p, a :: as, n => (∃ payload, cells a = some ⟨payload, as.head?.or n, p⟩) ∧ Linked cells (some a) as n

def setNext (cells : Cells α) (a : Nat) (n : Option Nat) : Option (Cells α) :=
  (cells a).map fun c => update cells a <| some { c with next := n }

def setPrevious (cells : Cells α) (a : Nat) (p : Option Nat) : Option (Cells α) :=
  (cells a).map fun c => update cells a <| some { c with previous := p }

-- The link of the cell, where there is one.
def setNextOf (cells : Cells α) (a : Option Nat) (n : Option Nat) : Option (Cells α) :=
  match a with
  | none   => some cells
  | some a => cells.setNext a n

def setPreviousOf (cells : Cells α) (a : Option Nat) (p : Option Nat) : Option (Cells α) :=
  match a with
  | none   => some cells
  | some a => cells.setPrevious a p

theorem linked_append :
    Linked cells p (as ++ bs) n ↔ Linked cells p as (bs.head?.or n) ∧ Linked cells (as.getLast?.or p) bs n := by
  induction as generalizing p
  case nil            => simp [Linked]
  case cons a as ih =>
    have hh : (as ++ bs).head?.or n = as.head?.or (bs.head?.or n) := by
      rw [List.head?_append, Option.or_assoc]
    have hl : ((a :: as).getLast?).or p = as.getLast?.or (some a) := by
      cases as with
      | nil => rfl
      | cons b as => simp [List.getLast?_cons_cons, List.getLast?_eq_some_getLast]
    rw [List.cons_append, Linked, Linked, ih, hh, hl, and_assoc]

namespace Linked

theorem congr (h : Linked cells p as n) (hc : ∀ a ∈ as, cells' a = cells a) : Linked cells' p as n := by
  induction as generalizing p
  case nil          => trivial
  case cons a as ih =>
    exact ⟨hc a List.mem_cons_self ▸ h.left, ih h.right fun b hb => hc b <| List.mem_cons_of_mem _ hb⟩

theorem cell (h : Linked cells p (as ++ a :: bs) n) :
    ∃ payload, cells a = some ⟨payload, bs.head?.or n, as.getLast?.or p⟩ :=
  (linked_append.mp h).right.left

theorem isSome_of_mem (h : Linked cells p as n) (ha : a ∈ as) : ∃ c, cells a = some c := by
  have ⟨_, _, he⟩ := List.append_of_mem ha
  have ⟨_, hc⟩ := (he ▸ h).cell
  exact ⟨_, hc⟩

-- The cells between two links are determined by where they start.
theorem unique (h : Linked cells p as none) (h' : Linked cells p' bs none) (hh : as.head? = bs.head?) : as = bs := by
  induction as generalizing bs p p'
  case nil          =>
    cases bs
    case nil  => rfl
    case cons => cases hh
  case cons a as ih =>
    cases bs
    case nil       => cases hh
    case cons b bs =>
      cases Option.some.inj hh
      have ⟨_, hc⟩ := h.left
      have ⟨_, hc'⟩ := h'.left
      have hn := congrArg Cell.next <| Option.some.inj <| hc.symm.trans hc'
      rw [Option.or_none, Option.or_none] at hn
      rw [ih h.right h'.right hn]

-- The last cell is linked to another one.
theorem setNext_last (h : Linked cells p (as ++ [a]) n) (hn : (as ++ [a]).Nodup) (n' : Option Nat) :
    ∃ cells', cells.setNext a n' = some cells' ∧ Linked cells' p (as ++ [a]) n' ∧ (∀ b ≠ a, cells' b = cells b) ∧
      (cells' a).map Cell.payload = (cells a).map Cell.payload := by
  have ⟨payload, hc⟩ := h.cell
  have hne (b) (hb : b ≠ a) : update cells a (some ⟨payload, n', as.getLast?.or p⟩) b = cells b :=
    Function.update_of_ne hb _ _
  have ha : a ∉ as := fun ha => (List.nodup_append.mp hn).right.right a ha a List.mem_cons_self rfl
  refine ⟨_, by rw [Cells.setNext, hc]; rfl, ?_, hne, by rw [Function.update_self, hc]; rfl⟩
  have h := linked_append.mp h
  refine linked_append.mpr ⟨h.left.congr fun b hb => hne b fun he => ha <| he ▸ hb, ?_, trivial⟩
  exact ⟨payload, Function.update_self ..⟩

-- The first cell is linked to another one.
theorem setPrevious_head (h : Linked cells p (a :: as) n) (hn : (a :: as).Nodup) (p' : Option Nat) :
    ∃ cells', cells.setPrevious a p' = some cells' ∧ Linked cells' p' (a :: as) n ∧ (∀ b ≠ a, cells' b = cells b) ∧
      (cells' a).map Cell.payload = (cells a).map Cell.payload := by
  have ⟨payload, hc⟩ := h.left
  have hne (b) (hb : b ≠ a) : update cells a (some ⟨payload, as.head?.or n, p'⟩) b = cells b :=
    Function.update_of_ne hb _ _
  have ha : a ∉ as := (List.nodup_cons.mp hn).left
  refine ⟨_, by rw [Cells.setPrevious, hc]; rfl, ⟨⟨payload, Function.update_self ..⟩, ?_⟩, hne,
    by rw [Function.update_self, hc]; rfl⟩
  exact h.right.congr fun b hb => hne b fun he => ha <| he ▸ hb

-- The same for cells that need not be there.
theorem setNextOf_last (h : Linked cells p as n) (hn : as.Nodup) (n' : Option Nat) :
    ∃ cells', cells.setNextOf as.getLast? n' = some cells' ∧ Linked cells' p as n' ∧
      (∀ b ∉ as, cells' b = cells b) ∧ ∀ b, (cells' b).map Cell.payload = (cells b).map Cell.payload := by
  rcases List.eq_nil_or_concat as with rfl | ⟨as, a, rfl⟩
  · exact ⟨cells, rfl, trivial, fun _ _ => rfl, fun _ => rfl⟩
  · rw [List.concat_eq_append] at *
    have ⟨cells', hc, hl, hne, hp⟩ := h.setNext_last hn n'
    refine ⟨cells', by rw [List.getLast?_concat, Cells.setNextOf, hc], hl, fun b hb => hne b fun he => hb ?_, fun b => ?_⟩
    · rw [he]
      exact List.mem_append_right _ List.mem_cons_self
    · by_cases hb : b = a
      case pos => rw [hb, hp]
      case neg => rw [hne b hb]

theorem setPreviousOf_head (h : Linked cells p as n) (hn : as.Nodup) (p' : Option Nat) :
    ∃ cells', cells.setPreviousOf as.head? p' = some cells' ∧ Linked cells' p' as n ∧
      (∀ b ∉ as, cells' b = cells b) ∧ ∀ b, (cells' b).map Cell.payload = (cells b).map Cell.payload := by
  cases as
  case nil       => exact ⟨cells, rfl, trivial, fun _ _ => rfl, fun _ => rfl⟩
  case cons a as =>
    have ⟨cells', hc, hl, hne, hp⟩ := h.setPrevious_head hn p'
    refine ⟨cells', hc, hl, fun b hb => hne b fun he => hb ?_, fun b => ?_⟩
    · rw [he]
      exact List.mem_cons_self
    · by_cases hb : b = a
      case pos => rw [hb, hp]
      case neg => rw [hne b hb]

-- What the links between two parts have become, whichever is set first.
structure Relinked (cells cells' : Cells α) (p : Option Nat) (as : List Nat) (n' p' : Option Nat) (bs : List Nat)
    (n : Option Nat) : Prop where
  left    : Linked cells' p as n'
  right   : Linked cells' p' bs n
  kept    : ∀ a, a ∉ as → a ∉ bs → cells' a = cells a
  payload : ∀ a, (cells' a).map Cell.payload = (cells a).map Cell.payload

theorem relink {n₀ p₀ : Option Nat} (h : Linked cells p as n₀) (h' : Linked cells p₀ bs n) (hn : (as ++ bs).Nodup)
    (n' p' : Option Nat) :
    ∃ cells₁ cells₂, cells.setNextOf as.getLast? n' = some cells₁ ∧ cells₁.setPreviousOf bs.head? p' = some cells₂ ∧
      Relinked cells cells₂ p as n' p' bs n := by
  have ⟨hnas, hnbs, hd⟩ := List.nodup_append.mp hn
  have hd {a} (ha : a ∈ as) (hb : a ∈ bs) : False := hd a ha a hb rfl
  have ⟨cells₁, hset, hl, hkept, hp⟩ := h.setNextOf_last hnas n'
  have ⟨cells₂, hset', hl', hkept', hp'⟩ := (h'.congr fun b hb => hkept b fun ha => hd ha hb).setPreviousOf_head hnbs p'
  exact ⟨cells₁, cells₂, hset, hset', hl.congr fun a ha => hkept' a <| hd ha, hl',
    fun a ha hb => (hkept' a hb).trans <| hkept a ha, fun a => (hp' a).trans <| hp a⟩

theorem relink' {n₀ p₀ : Option Nat} (h : Linked cells p as n₀) (h' : Linked cells p₀ bs n) (hn : (as ++ bs).Nodup)
    (n' p' : Option Nat) :
    ∃ cells₁ cells₂, cells.setPreviousOf bs.head? p' = some cells₁ ∧ cells₁.setNextOf as.getLast? n' = some cells₂ ∧
      Relinked cells cells₂ p as n' p' bs n := by
  have ⟨hnas, hnbs, hd⟩ := List.nodup_append.mp hn
  have hd {a} (ha : a ∈ as) (hb : a ∈ bs) : False := hd a ha a hb rfl
  have ⟨cells₁, hset, hl, hkept, hp⟩ := h'.setPreviousOf_head hnbs p'
  have ⟨cells₂, hset', hl', hkept', hp'⟩ := (h.congr fun b hb => hkept b <| hd hb).setNextOf_last hnas n'
  exact ⟨cells₁, cells₂, hset, hset', hl', hl.congr fun a ha => hkept' a fun hb => hd hb ha,
    fun a ha hb => (hkept' a ha).trans <| hkept a hb, fun a => (hp' a).trans <| hp a⟩

-- A cell that is not in use is set up between two parts.
theorem alloc (h : Linked cells none (as ++ bs) none) (ha : a ∉ as ++ bs) (cell : Cell α) :
    Linked (update cells a (some cell) : Cells α) none as bs.head? ∧
      Linked (update cells a (some cell) : Cells α) as.getLast? bs none := by
  have hl : Linked (update cells a (some cell) : Cells α) none (as ++ bs) none := h.congr fun b hb =>
    Function.update_of_ne (ne_of_mem_of_not_mem hb ha) _ _
  have hl := linked_append.mp hl
  rw [Option.or_none, Option.or_none] at hl
  exact hl

-- The cell is between the parts.
theorem Relinked.insert {payload : α} (hr : Relinked (update cells a <| some ⟨payload, bs.head?, as.getLast?⟩) cells'
      none as (some a) (some a) bs none) (ha : a ∉ as ++ bs) :
    Linked cells' none (as ++ a :: bs) none ∧ (∀ b, b ∉ as ++ bs → b ≠ a → cells' b = cells b) ∧
      (cells' a).map Cell.payload = some payload ∧
      ∀ b ≠ a, (cells' b).map Cell.payload = (cells b).map Cell.payload := by
  have hnot := not_or.mp <| List.mem_append.not.mp ha
  refine ⟨linked_append.mpr ⟨hr.left, ⟨payload, ?_⟩, hr.right⟩, fun b hb hne => ?_, ?_, fun b hne => ?_⟩
  · rw [hr.kept a hnot.left hnot.right, Function.update_self, Option.or_none, Option.or_none]
  · have hb := not_or.mp <| List.mem_append.not.mp hb
    rw [hr.kept b hb.left hb.right, Function.update_of_ne hne]
  · rw [hr.payload, Function.update_self]
    rfl
  · rw [hr.payload, Function.update_of_ne hne]

-- The cell comes after all of them.
theorem snoc (h : Linked cells none as none) (hn : as.Nodup) (ha : a ∉ as) (payload : α) :
    ∃ cells', Cells.setNextOf (update cells a <| some ⟨payload, none, as.getLast?⟩) as.getLast? (some a) = some cells' ∧
      Linked cells' none (as ++ [a]) none ∧ (∀ b, b ∉ as → b ≠ a → cells' b = cells b) ∧
      (cells' a).map Cell.payload = some payload ∧
      ∀ b ≠ a, (cells' b).map Cell.payload = (cells b).map Cell.payload := by
  have he : as ++ [] = as := List.append_nil as
  have ⟨hl, hr⟩ := @alloc _ cells a as [] (he.symm ▸ h) (he.symm ▸ ha) ⟨payload, none, as.getLast?⟩
  have ⟨cells₁, cells₂, hset, hset', hrelinked⟩ := hl.relink hr (he.symm ▸ hn) (some a) (some a)
  cases hset'
  have ⟨hi, hkept, hpayloads⟩ := @Relinked.insert _ cells cells₁ a as [] payload hrelinked (he.symm ▸ ha)
  rw [he] at hkept
  exact ⟨cells₁, hset, hi, hkept, hpayloads⟩

-- The cell comes before all of them.
theorem cons (h : Linked cells none as none) (hn : as.Nodup) (ha : a ∉ as) (payload : α) :
    ∃ cells', Cells.setPreviousOf (update cells a <| some ⟨payload, as.head?, none⟩) as.head? (some a) = some cells' ∧
      Linked cells' none (a :: as) none ∧ ∀ b, b ∉ as → b ≠ a → cells' b = cells b := by
  have ⟨hl, hr⟩ := @alloc _ cells a [] as h ha ⟨payload, as.head?, none⟩
  have ⟨cells₁, cells₂, hset, hset', hrelinked⟩ := hl.relink hr hn (some a) (some a)
  cases hset
  have hi := @Relinked.insert _ cells cells₂ a [] as payload hrelinked ha
  exact ⟨cells₂, hset', hi.left, hi.right.left⟩

-- The cell between the parts is left out.
theorem Relinked.remove (hr : Relinked cells cells' none as bs.head? as.getLast? bs none) (ha : a ∉ as ++ bs) :
    Linked (update cells' a none : Cells α) none (as ++ bs) none := by
  have hl : Linked cells' none (as ++ bs) none := by
    rw [linked_append, Option.or_none, Option.or_none]
    exact ⟨hr.left, hr.right⟩
  exact hl.congr fun b hb => Function.update_of_ne (ne_of_mem_of_not_mem hb ha) _ _

end Linked
end Cells
