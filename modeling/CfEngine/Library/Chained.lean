import Mathlib.Data.List.Nodup
import Mathlib.Data.List.Range
import Mathlib.Data.List.Perm.Subperm

-- Cells in a memory that are linked one way.

structure Link (α : Type*) where
  payload : α
  next    : Option Nat

abbrev Links (α : Type*) := List (Option (Link α))

namespace Links

variable {α : Type*} {links links' : Links α} {p n : Option Nat} {a b : Nat} {x y : α} {as bs : List (Nat × α)}

def get (links : Links α) (a : Nat) : Option (Link α) :=
  links[a]?.join

def put (links : Links α) (a : Nat) (link : Option (Link α)) : Links α :=
  links.set a link

-- The link to the first of the cells, with the one to what follows them.
def front : List (Nat × α) → Option Nat → Option Nat
  | [], n          => n
  | (a, _) :: _, _ => some a

-- What the cell at the address holds is changed.
def change (a : Nat) (f : α → α) (c : Nat × α) : Nat × α :=
  if c.1 = a then (c.1, f c.2) else c

-- The cells, by their addresses and what they hold, follow each other from the link `p` up to the link `n`.
def Chained (links : Links α) : Option Nat → List (Nat × α) → Option Nat → Prop
  | p, [], n           => p = n
  | p, (a, x) :: as, n => p = some a ∧ links.get a = some ⟨x, front as n⟩ ∧ Chained links (front as n) as n

theorem lt_length_of_get {link : Link α} (h : links.get a = some link) : a < links.length := by
  by_contra hlt
  rw [get, List.getElem?_eq_none (Nat.le_of_not_lt hlt)] at h
  cases h

theorem get_put {l : Option (Link α)} (h : a < links.length) :
    (links.put a l).get b = if b = a then l else links.get b := by
  rw [get, put, get]
  split
  case isTrue he  => rw [he, List.getElem?_set_self h, Option.join_some]
  case isFalse he => rw [List.getElem?_set_ne (Ne.symm he)]

theorem get_concat {l : Option (Link α)} :
    get (links ++ [l]) b = if b = links.length then l else links.get b := by
  rw [get, get]
  split
  case isTrue he  => rw [he, List.getElem?_concat_length, Option.join_some]
  case isFalse he =>
    rw [List.getElem?_append]
    split
    case isTrue       => rfl
    case isFalse hlen =>
      rw [List.getElem?_eq_none (show [l].length ≤ b - links.length by simp; omega),
        List.getElem?_eq_none (Nat.le_of_not_lt hlen)]

@[simp]
theorem front_nil : front ([] : List (Nat × α)) n = n :=
  rfl

@[simp]
theorem front_cons {c : Nat × α} : front (c :: as) n = some c.1 :=
  rfl

theorem front_append : front (as ++ bs) n = front as (front bs n) := by
  cases as <;> rfl

theorem front_map {f : Nat × α → Nat × α} (hf : ∀ c, (f c).1 = c.1) : front (as.map f) n = front as n := by
  cases as
  case nil  => rfl
  case cons => exact congrArg some <| hf _

theorem change_fst {f : α → α} {c : Nat × α} : (change a f c).1 = c.1 := by
  rw [change]
  split <;> rfl

theorem mem_of_front (h : front as none = some a) : a ∈ as.map Prod.fst := by
  cases as
  case nil  => cases h
  case cons =>
    cases h
    exact List.mem_cons_self

theorem chained_append :
    Chained links p (as ++ bs) n ↔ Chained links p as (front bs n) ∧ Chained links (front bs n) bs n := by
  induction as generalizing p
  case nil            =>
    constructor
    case mp  =>
      intro h
      cases bs
      case nil       => exact ⟨h, rfl⟩
      case cons b bs => exact ⟨h.left, rfl, h.right⟩
    case mpr => exact fun ⟨hp, h⟩ => hp ▸ h
  case cons a as ih => rw [List.cons_append, Chained, Chained, front_append, ih, and_assoc, and_assoc]

namespace Chained

theorem front_eq (h : Chained links p as n) : p = front as n := by
  cases as
  case nil  => exact h
  case cons => exact h.left

theorem congr (h : Chained links p as n) (hc : ∀ a ∈ as.map Prod.fst, links'.get a = links.get a) :
    Chained links' p as n := by
  induction as generalizing p
  case nil          => exact h
  case cons a as ih =>
    have ⟨hp, ha, h⟩ := h
    exact ⟨hp, hc a.1 List.mem_cons_self ▸ ha, ih h fun b hb => hc b <| List.mem_cons_of_mem _ hb⟩

theorem get_eq (h : Chained links p (as ++ (a, x) :: bs) n) : links.get a = some ⟨x, front bs n⟩ :=
  (chained_append.mp h).right.right.left

theorem get_of_mem (h : Chained links p as n) (ha : (a, x) ∈ as) : ∃ next, links.get a = some ⟨x, next⟩ := by
  have ⟨_, _, he⟩ := List.append_of_mem ha
  exact ⟨_, (he ▸ h).get_eq⟩

theorem lt_length (h : Chained links p as n) (ha : a ∈ as.map Prod.fst) : a < links.length := by
  have ⟨⟨_, x⟩, hx, he⟩ := List.mem_map.mp ha
  cases he
  have ⟨_, hget⟩ := h.get_of_mem hx
  exact lt_length_of_get hget

-- The cells up to the end are determined by where they start.
theorem unique (h : Chained links p as none) (h' : Chained links p bs none) : as = bs := by
  induction as generalizing bs p
  case nil          =>
    cases bs
    case nil  => rfl
    case cons => exact nomatch (h : p = none).symm.trans h'.left
  case cons a as ih =>
    cases bs
    case nil       => exact nomatch (h' : p = none).symm.trans h.left
    case cons b bs =>
      have ⟨hp, ha, h⟩ := h
      have ⟨hp', hb, h'⟩ := h'
      have hab : a.1 = b.1 := Option.some.inj <| hp.symm.trans hp'
      have hlink := Option.some.inj <| ha.symm.trans <| (congrArg links.get hab).trans hb
      have ⟨hx, hnext⟩ := Link.mk.inj hlink
      rw [Prod.ext hab hx, ih h (hnext ▸ h')]

theorem nodup (h : Chained links p as none) : (as.map Prod.fst).Nodup := by
  induction as generalizing p
  case nil          => exact List.nodup_nil
  case cons a as ih =>
    refine List.nodup_cons.mpr ⟨fun ha => ?_, ih h.right.right⟩
    -- The cells after the second occurrence would be the same as those after the first one.
    have ⟨⟨b, y⟩, hb, hab⟩ := List.mem_map.mp ha
    cases hab
    have ⟨us, vs, he⟩ := List.append_of_mem hb
    have hsplit : Chained links (front as none) (us ++ (a.1, y) :: vs) none := he ▸ h.right.right
    have hlink := Option.some.inj <| h.right.left.symm.trans hsplit.get_eq
    have hrest := (chained_append.mp hsplit).right.right.right
    rw [←(Link.mk.inj hlink).right] at hrest
    have hlen := congrArg List.length <| (hrest.unique h.right.right).trans he
    rw [List.length_append, List.length_cons] at hlen
    omega

theorem length_le (h : Chained links p as none) : as.length ≤ links.length := by
  have hsub : as.map Prod.fst ⊆ List.range links.length := fun a ha => List.mem_range.mpr <| h.lt_length ha
  have hle := (List.subperm_of_subset h.nodup hsub).length_le
  rwa [List.length_map, List.length_range] at hle

-- No cell is both before and after.
theorem disjoint (h : Chained links p (as ++ bs) none) (ha : a ∈ as.map Prod.fst) : a ∉ bs.map Prod.fst := by
  have hn := h.nodup
  rw [List.map_append] at hn
  exact fun hb => (List.nodup_append.mp hn).right.right a ha a hb rfl

-- A cell before a place is not the one at the place.
theorem ne_front (h : Chained links p (as ++ bs) none) (ha : a ∈ as.map Prod.fst) : some a ≠ front bs none :=
  fun he => h.disjoint ha <| mem_of_front he.symm

-- The memory of a cell that is not among them.
theorem put_of_notMem (h : Chained links p as n) {l : Option (Link α)} (hb : b < links.length)
    (ha : b ∉ as.map Prod.fst) : Chained (links.put b l) p as n :=
  h.congr fun a hm => by
    have hne : a ≠ b := fun he => ha <| he ▸ hm
    rw [get_put hb, if_neg hne]

theorem concat (h : Chained links p as n) {l : Option (Link α)} : Chained (links ++ [l]) p as n :=
  h.congr fun a hm => by rw [get_concat, if_neg <| Nat.ne_of_lt <| h.lt_length hm]

-- The last cell is linked to other cells, and may hold something else.
theorem put_last (h : Chained links p (as ++ [(a, x)]) n) {n' : Option Nat} (h' : Chained links n' bs none)
    (has : a ∉ as.map Prod.fst) (hbs : a ∉ bs.map Prod.fst) :
    Chained (links.put a <| some ⟨y, n'⟩) p (as ++ (a, y) :: bs) none := by
  have hlt := lt_length_of_get h.get_eq
  have hget : get (links.put a <| some ⟨y, n'⟩) a = some ⟨y, front bs none⟩ := by
    rw [get_put hlt, if_pos rfl, h'.front_eq]
  have hl := (chained_append.mp h).left
  exact chained_append.mpr ⟨hl.put_of_notMem hlt has, rfl, hget, h'.front_eq ▸ h'.put_of_notMem hlt hbs⟩

theorem split (h : Chained links p (as ++ (a, x) :: bs) none) :
    Chained links p (as ++ [(a, x)]) (front bs none) ∧ Chained links (front bs none) bs none ∧
      a ∉ as.map Prod.fst ∧ a ∉ bs.map Prod.fst := by
  have hr := (chained_append.mp h).right
  have hs : Chained links p (as ++ [(a, x)] ++ bs) none := by rwa [List.append_assoc]
  exact ⟨(chained_append.mp hs).left, hr.right.right, fun ha => h.disjoint ha List.mem_cons_self,
    (List.nodup_cons.mp hr.nodup).left⟩

-- A new cell after a cell.
theorem insert (h : Chained links p (as ++ (a, x) :: bs) none) :
    Chained (put (links ++ [some ⟨y, front bs none⟩]) a <| some ⟨x, some links.length⟩) p
      (as ++ (a, x) :: (links.length, y) :: bs) none := by
  have ⟨hl, hr, has, hbs⟩ := h.split
  have hnew : Chained (links ++ [some ⟨y, front bs none⟩]) (some links.length) ((links.length, y) :: bs) none :=
    ⟨rfl, by rw [get_concat, if_pos rfl], hr.concat⟩
  refine hl.concat.put_last hnew has ?_
  rw [List.map_cons, List.mem_cons, not_or]
  exact ⟨Nat.ne_of_lt <| lt_length_of_get h.get_eq, hbs⟩

-- What a cell holds is changed, wherever it is.
theorem modify (h : Chained links p as n) {n' : Option Nat} (hget : links.get a = some ⟨x, n'⟩) (f : α → α) :
    Chained (links.put a <| some ⟨f x, n'⟩) p (as.map <| change a f) n := by
  have hlt := lt_length_of_get hget
  induction as generalizing p
  case nil          => exact h
  case cons c as ih =>
    have ⟨hp, hc, htail⟩ := h
    have hfront : front (as.map <| change a f) n = front as n := front_map fun _ => change_fst
    show p = some (change a f c).1 ∧ get (links.put a <| some ⟨f x, n'⟩) (change a f c).1 =
      some ⟨(change a f c).2, front (as.map <| change a f) n⟩ ∧
      Chained (links.put a <| some ⟨f x, n'⟩) (front (as.map <| change a f) n) (as.map <| change a f) n
    rw [change_fst, get_put hlt, hfront]
    refine ⟨hp, ?_, ih htail⟩
    rw [change]
    split
    case isFalse    => exact hc
    case isTrue hca =>
      cases (hca ▸ hc).symm.trans hget
      rfl

-- A new cell before all.
theorem cons (h : Chained links p as none) :
    Chained (links ++ [some ⟨y, p⟩]) (some links.length) ((links.length, y) :: as) none := by
  refine ⟨rfl, ?_, h.front_eq ▸ h.concat⟩
  rw [get_concat, if_pos rfl, h.front_eq]

end Chained
end Links
