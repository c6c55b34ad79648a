import CfEngine.Libutils.Buffer
import Mathlib.Data.List.TakeDrop

namespace CfEngine.Libutils

variable {α : Type} (compare : α → α → Int)

-- In these functions `range` are the items that the cursors may be dereferenced at, and the outcome
-- `none` is a dereference anywhere else. The cursor `r` is given by `e`, the number of items up to it:
-- it may end up before the first item.

def swap (range : List α) (l r : Nat) : Outcome (List α) := do
  let t ← range[l]?
  let s ← range[r]?
  return (range.set l s).set r t

-- The loop that advances the cursor `l`, where `items` are those of the range from `l` on.
def scanUp (pivot : α) : (l : Nat) → (items : List α) → Outcome Nat
  | _, []         => none
  | l, x :: items => if compare x pivot < 0 then scanUp pivot (l + 1) items else some l

-- The loop that moves the cursor `r` back.
def scanDown (pivot : α) (range : List α) : (e : Nat) → Outcome Nat
  | 0     => none
  | e + 1 => do
    let x ← range[e]?
    if compare x pivot > 0 then scanDown pivot range e else some (e + 1)

-- The loop over both cursors. They come closer in each round, so that the rounds do not run out.
def quickSortPartition (pivot : α) : (rounds : Nat) → (range : List α) → (l e : Nat) →
    Outcome (List α × Nat × Nat)
  | 0, _, _, _              => none
  | rounds + 1, range, l, e =>
    if l < e then do
      let l ← scanUp compare pivot l (range.drop l)
      let e ← scanDown compare pivot range e
      if l < e then
        quickSortPartition pivot rounds (← swap range l (e - 1)) (l + 1) (e - 1)
      else
        quickSortPartition pivot rounds range l e
    else
      some (range, l, e)

-- `data` are the items from the pointer of that name on, and the first `n` of them are the current
-- range. The ranges of the calls are shorter than it, so that the calls do not run out. Their depth
-- `maxterm` is only used by an `assert`.
def quickSortRecursive (calls : Nat) (data : List α) (n : Int) : Outcome (List α) :=
  if n < 2 then
    some data
  else
    match calls with
    | 0         => none
    | calls + 1 => do
      let range := data.take n.toNat
      let pivot ← range[n.toNat / 2]?
      let (range, l, e) ← quickSortPartition compare pivot (n.toNat + 1) range 0 n.toNat
      let data ← quickSortRecursive calls (range ++ data.drop n.toNat) e
      let upper ← quickSortRecursive calls (data.drop l) (n - l)
      return data.take l ++ upper

-- The length is passed as an `int`.
def seqSort (seq : List α) : Outcome (List α) :=
  quickSortRecursive compare seq.length seq (signed seq.length)

example : seqSort (fun a b : Int => a - b) [3, 1, 2, 3, 0, 1] = some [0, 1, 1, 2, 3, 3] := by decide

end CfEngine.Libutils

namespace CfEngine.Libutils

-- The comparator orders its arguments both ways alike, and the order is transitive.
structure TotalPreorder {α : Type} (compare : α → α → Int) : Prop where
  lt_zero_iff (a b : α) : compare a b < 0 ↔ 0 < compare b a
  trans (a b c : α) : compare a b ≤ 0 → compare b c ≤ 0 → compare a c ≤ 0

-- The sequence is left as an ordered permutation, and no cursor is dereferenced outside its range.
def Sorts {α : Type} (compare : α → α → Int) (seq : List α) : Prop :=
  ∃ sorted, seqSort compare seq = some sorted ∧ sorted.Perm seq ∧ sorted.Pairwise (compare · · ≤ 0)

variable {α : Type} {compare : α → α → Int} {pivot x : α} {seq range range' : List α} {l e r : Nat}

namespace TotalPreorder

variable (h : TotalPreorder compare)
include h

theorem le_of_not_lt {a b : α} (hc : ¬compare a b < 0) : compare b a ≤ 0 :=
  Int.not_lt.mp <| mt (h.lt_zero_iff a b).mpr hc

theorem le_of_gt {a b : α} (hc : compare a b > 0) : compare b a ≤ 0 :=
  Int.le_of_lt <| (h.lt_zero_iff b a).mpr hc

end TotalPreorder

-- What the partition of a range keeps in each round. A scan is started only if there is an item that
-- ends it.
structure Cursors (compare : α → α → Int) (pivot : α) (seq range : List α) (l e : Nat) : Prop where
  perm  : range.Perm seq
  l_le  : l ≤ range.length
  e_le  : e ≤ range.length
  below : ∀ i x, i < l → range[i]? = some x → compare x pivot ≤ 0
  above : ∀ i x, e ≤ i → range[i]? = some x → compare pivot x ≤ 0
  up    : l < e → ∃ i x, l ≤ i ∧ range[i]? = some x ∧ compare pivot x ≤ 0
  down  : l < e → ∃ i x, i < e ∧ range[i]? = some x ∧ compare x pivot ≤ 0

theorem scanUp_spec (h : TotalPreorder compare)
    (hu : ∃ i x, l ≤ i ∧ range[i]? = some x ∧ compare pivot x ≤ 0) :
    ∃ l' y, scanUp compare pivot l (range.drop l) = some l' ∧ l ≤ l' ∧ range[l']? = some y ∧
      compare pivot y ≤ 0 ∧ ∀ i x, l ≤ i → i < l' → range[i]? = some x → compare x pivot ≤ 0 := by
  have ⟨i, x, hi, hx, hp⟩ := hu
  induction hd : range.drop l generalizing l
  case nil =>
    have hle := List.drop_eq_nil_iff.mp hd
    rw [List.getElem?_eq_none (hle.trans hi)] at hx
    contradiction
  case cons y items ih =>
    have hy : range[l]? = some y := by rw [←List.head?_drop, hd, List.head?_cons]
    have hd' : range.drop (l + 1) = items := by rw [←List.tail_drop, hd, List.tail_cons]
    by_cases hc : compare y pivot < 0
    case neg =>
      exact ⟨l, y, by simp [scanUp, hc], le_rfl, hy, h.le_of_not_lt hc, fun _ _ hi hi' => by omega⟩
    case pos =>
      have hne : l ≠ i := by
        rintro rfl
        cases Option.some.inj <| hy.symm.trans hx
        exact absurd ((h.lt_zero_iff _ _).mp hc) <| Int.not_lt.mpr hp
      have hlt : l + 1 ≤ i := Nat.lt_of_le_of_ne hi hne
      have ⟨l', z, hs, hl, hz, hpz, hb⟩ := ih ⟨i, x, hlt, hx, hp⟩ hlt hd'
      refine ⟨l', z, by simp [scanUp, hc, hs], by omega, hz, hpz, fun j w hj hj' hw => ?_⟩
      cases Nat.lt_or_eq_of_le hj
      case inl hj => exact hb j w hj hj' hw
      case inr hj =>
        subst hj
        cases Option.some.inj <| hy.symm.trans hw
        exact Int.le_of_lt hc

theorem scanDown_spec (h : TotalPreorder compare) (he : e ≤ range.length)
    (hd : ∃ i x, i < e ∧ range[i]? = some x ∧ compare x pivot ≤ 0) :
    ∃ r y, scanDown compare pivot range e = some (r + 1) ∧ r < e ∧ range[r]? = some y ∧
      compare y pivot ≤ 0 ∧ ∀ i x, r < i → i < e → range[i]? = some x → compare pivot x ≤ 0 := by
  have ⟨i, x, hi, hx, hp⟩ := hd
  induction e
  case zero => contradiction
  case succ e ih =>
    have hy := List.getElem?_eq_getElem (Nat.lt_of_succ_le he)
    by_cases hc : compare range[e] pivot > 0
    case neg =>
      have hs : scanDown compare pivot range (e + 1) = some (e + 1) := by simp [scanDown, hy, hc]
      exact ⟨e, range[e], hs, Nat.lt_succ_self e, hy, Int.not_lt.mp hc, fun _ _ hi hi' => by omega⟩
    case pos =>
      have hne : i ≠ e := by
        rintro rfl
        cases Option.some.inj <| hy.symm.trans hx
        exact absurd hp <| Int.not_le.mpr hc
      have hlt : i < e := by omega
      have ⟨r, z, hs, hr, hz, hpz, hb⟩ := ih (by omega) ⟨i, x, hlt, hx, hp⟩ hlt
      refine ⟨r, z, by simp [scanDown, hy, hc, hs], by omega, hz, hpz, fun j w hj hj' hw => ?_⟩
      cases Nat.lt_or_eq_of_le <| Nat.le_of_lt_succ hj'
      case inl hj' => exact hb j w hj hj' hw
      case inr hj' =>
        subst hj'
        cases Option.some.inj <| hy.symm.trans hw
        exact h.le_of_gt hc

theorem swap_spec {y z : α} (hl : range[l]? = some y) (hr : range[r]? = some z) :
    ∃ range', swap range l r = some range' ∧ range'.Perm range ∧
      ∀ i, range'[i]? = if i = r then some y else if i = l then some z else range[i]? := by
  have ⟨hll, hly⟩ := List.getElem?_eq_some_iff.mp hl
  have ⟨hrl, hrz⟩ := List.getElem?_eq_some_iff.mp hr
  refine ⟨(range.set l z).set r y, by simp [swap, hl, hr], ?_, fun i => ?_⟩
  · subst hly hrz
    exact List.set_set_perm hll hrl
  · simp only [List.getElem?_set, List.length_set, hll, hrl, if_true, eq_comm (a := i)]

namespace Cursors

variable {y z : α}

theorem scanned {l' : Nat} (c : Cursors compare pivot seq range l e) (hr : r < e)
    (hy : range[l']? = some y) (hpy : compare pivot y ≤ 0)
    (hb : ∀ i x, l ≤ i → i < l' → range[i]? = some x → compare x pivot ≤ 0)
    (hz : range[r]? = some z) (hpz : compare z pivot ≤ 0)
    (ha : ∀ i x, r < i → i < e → range[i]? = some x → compare pivot x ≤ 0) :
    Cursors compare pivot seq range l' (r + 1) where
  perm    := c.perm
  l_le    := Nat.le_of_lt <| List.getElem?_eq_some_iff.mp hy |>.fst
  e_le    := Nat.le_trans hr c.e_le
  up _    := ⟨l', y, le_rfl, hy, hpy⟩
  down _  := ⟨r, z, Nat.lt_succ_self r, hz, hpz⟩
  below i x hi hx := by
    by_cases hl : i < l
    case pos => exact c.below i x hl hx
    case neg => exact hb i x (Nat.not_lt.mp hl) hi hx
  above i x hi hx := by
    by_cases he : i < e
    case pos => exact ha i x hi he hx
    case neg => exact c.above i x (Nat.not_lt.mp he) hx

-- The swap of two items that the scans have stopped at. They are what ends the next scans.
theorem swapped (c : Cursors compare pivot seq range l (r + 1)) (hlr : l ≤ r)
    (hy : range[l]? = some y) (hpy : compare pivot y ≤ 0) (hz : range[r]? = some z)
    (hpz : compare z pivot ≤ 0) :
    ∃ range', swap range l r = some range' ∧ Cursors compare pivot seq range' (l + 1) r := by
  have ⟨range', hs, hp, hi⟩ := swap_spec hy hz
  have hlen := hp.length_eq
  have hr := List.getElem?_eq_some_iff.mp hz |>.fst
  refine ⟨range', hs, ?_⟩
  constructor
  case perm => exact hp.trans c.perm
  case l_le => omega
  case e_le => omega
  case up   => exact fun hl => ⟨r, y, Nat.le_of_lt hl, by rw [hi, if_pos rfl], hpy⟩
  case down =>
    intro hl
    have hlr : l < r := Nat.lt_of_succ_lt hl
    exact ⟨l, z, hlr, by rw [hi, if_neg (Nat.ne_of_lt hlr), if_pos rfl], hpz⟩
  case below =>
    intro i x hil hx
    rw [hi] at hx
    split_ifs at hx with hir hil'
    · -- Both cursors are at the same item.
      have he : l = r := by omega
      subst he
      cases Option.some.inj <| hy.symm.trans hz
      exact Option.some.inj hx ▸ hpz
    · exact Option.some.inj hx ▸ hpz
    · exact c.below i x (by omega) hx
  case above =>
    intro i x hri hx
    rw [hi] at hx
    split_ifs at hx with hir hil'
    · exact Option.some.inj hx ▸ hpy
    · exact absurd (Nat.le_antisymm (hil' ▸ hlr) hri) hir
    · exact c.above i x (by omega) hx

end Cursors

theorem quickSortPartition_spec (h : TotalPreorder compare) {rounds : Nat}
    (c : Cursors compare pivot seq range l e) (hr : e - l < rounds) :
    ∃ range' l' e', quickSortPartition compare pivot rounds range l e = some (range', l', e') ∧
      Cursors compare pivot seq range' l' e' ∧ e' ≤ l' ∧ l ≤ l' ∧ e' ≤ e ∧
      (l < e → 0 < l' ∧ e' < seq.length) := by
  induction rounds generalizing range l e
  case zero => contradiction
  case succ rounds ih =>
    have hlen := c.perm.length_eq
    have hel := c.e_le
    by_cases hle : l < e
    case neg =>
      have hq : quickSortPartition compare pivot (rounds + 1) range l e = some (range, l, e) := by
        simp [quickSortPartition, hle]
      exact ⟨range, l, e, hq, c, by omega, le_rfl, le_rfl, fun hc => absurd hc hle⟩
    case pos =>
      have ⟨l', y, hsu, hll, hy, hpy, hb⟩ := scanUp_spec h <| c.up hle
      have ⟨r, z, hsd, hre, hz, hpz, ha⟩ := scanDown_spec h c.e_le <| c.down hle
      have hc := c.scanned hre hy hpy hb hz hpz ha
      by_cases hlr : l' < r + 1
      case pos =>
        have ⟨range', hs, hc'⟩ := hc.swapped (Nat.le_of_lt_succ hlr) hy hpy hz hpz
        have ⟨range'', l'', e'', hq, hc'', hel', hl, he, _⟩ := ih hc' (by omega)
        have hq' : quickSortPartition compare pivot (rounds + 1) range l e = some (range'', l'', e'') := by
          simp only [quickSortPartition, if_pos hle, hsu, hsd, Option.bind_eq_bind, Option.bind_some, if_pos hlr,
            Nat.add_sub_cancel, hs, hq]
        exact ⟨range'', l'', e'', hq', hc'', hel', by omega, by omega, fun _ => by omega⟩
      case neg =>
        have hl' := List.getElem?_eq_some_iff.mp hy |>.fst
        have ⟨range'', l'', e'', hq, hc'', hel', hl, he, _⟩ := ih hc (by omega)
        have hq' : quickSortPartition compare pivot (rounds + 1) range l e = some (range'', l'', e'') := by
          simp only [quickSortPartition, if_pos hle, hsu, hsd, Option.bind_eq_bind, Option.bind_some, if_neg hlr, hq]
        exact ⟨range'', l'', e'', hq', hc'', hel', by omega, by omega, fun _ => by omega⟩

-- The range after its partition: the items of the lower call, those between the cursors, and the
-- items of the upper call.
theorem Cursors.parts (c : Cursors compare pivot seq range l e) (hel : e ≤ l) :
    ∃ lower middle upper, range = lower ++ (middle ++ upper) ∧ lower.length = e ∧
      (lower ++ middle).length = l ∧ (∀ x ∈ lower ++ middle, compare x pivot ≤ 0) ∧
      (∀ x ∈ middle ++ upper, compare pivot x ≤ 0) := by
  have hlow : range.take e ++ (range.drop e).take (l - e) = range.take l := by
    rw [←List.take_add, Nat.add_sub_cancel' hel]
  have hupp : (range.drop e).take (l - e) ++ range.drop l = range.drop e := by
    conv_rhs => rw [←List.take_append_drop (l - e) (range.drop e), List.drop_drop, Nat.add_sub_cancel' hel]
  refine ⟨range.take e, (range.drop e).take (l - e), range.drop l, ?_, ?_, ?_, fun x hx => ?_, fun x hx => ?_⟩
  · rw [hupp, List.take_append_drop]
  · exact List.length_take_of_le c.e_le
  · exact hlow ▸ List.length_take_of_le c.l_le
  · have ⟨i, hi⟩ := List.mem_iff_getElem?.mp <| hlow ▸ hx
    rw [List.getElem?_take] at hi
    split_ifs at hi with hil
    exact c.below i x hil hi
  · have ⟨i, hi⟩ := List.mem_iff_getElem?.mp <| hupp ▸ hx
    rw [List.getElem?_drop] at hi
    exact c.above (e + i) x (Nat.le_add_right ..) hi

-- Ordered items that are not greater than the pivot, items equal to it, and ordered items that are not
-- less than it.
theorem TotalPreorder.pairwise_append (h : TotalPreorder compare) {lower middle upper : List α}
    (hl : lower.Pairwise (compare · · ≤ 0)) (hu : upper.Pairwise (compare · · ≤ 0))
    (hle : ∀ x ∈ lower ++ middle, compare x pivot ≤ 0)
    (hge : ∀ x ∈ middle ++ upper, compare pivot x ≤ 0) :
    (lower ++ (middle ++ upper)).Pairwise (compare · · ≤ 0) := by
  have ht x (hx : x ∈ lower ++ middle) y (hy : y ∈ middle ++ upper) : compare x y ≤ 0 :=
    h.trans _ _ _ (hle x hx) (hge y hy)
  have hm : middle.Pairwise (compare · · ≤ 0) := List.pairwise_of_forall_mem_list fun x hx y hy =>
    ht x (List.mem_append_right _ hx) y (List.mem_append_left _ hy)
  refine List.pairwise_append.mpr ⟨hl, List.pairwise_append.mpr ⟨hm, hu, fun x hx y hy => ?_⟩, ?_⟩
  · exact ht x (List.mem_append_right _ hx) y (List.mem_append_right _ hy)
  · exact fun x hx y hy => ht x (List.mem_append_left _ hx) y hy

theorem pairwise_of_length_lt_two {R : α → α → Prop} {items : List α} (h : items.length < 2) :
    items.Pairwise R :=
  match items with
  | []         => .nil
  | [x]        => List.pairwise_singleton R x
  | _ :: _ :: _ => absurd h (by simp)

-- The partition of the range that a call starts with. The pivot ends both of the first scans.
theorem quickSortPartition_range (h : TotalPreorder compare) (hn : 2 ≤ range.length) :
    ∃ pivot range' l e, range[range.length / 2]? = some pivot ∧
      quickSortPartition compare pivot (range.length + 1) range 0 range.length = some (range', l, e) ∧
      Cursors compare pivot range range' l e ∧ e ≤ l ∧ 0 < l ∧ e < range.length := by
  have hi : range.length / 2 < range.length := by omega
  have hp := List.getElem?_eq_getElem hi
  have hr : compare range[range.length / 2] range[range.length / 2] ≤ 0 := by
    have := h.lt_zero_iff range[range.length / 2] range[range.length / 2]
    omega
  have c : Cursors compare range[range.length / 2] range range 0 range.length := by
    refine ⟨.refl _, Nat.zero_le _, le_rfl, fun _ _ hi => by omega, fun i x hi hx => ?_, ?_, ?_⟩
    · rw [List.getElem?_eq_none hi] at hx
      contradiction
    · exact fun _ => ⟨_, _, Nat.zero_le _, hp, hr⟩
    · exact fun _ => ⟨_, _, hi, hp, hr⟩
  have ⟨range', l, e, hq, hc, hel, _, _, hs⟩ := quickSortPartition_spec h c <|
    show range.length - 0 < range.length + 1 by omega
  have ⟨hl, he⟩ := hs (by omega)
  exact ⟨_, range', l, e, hp, hq, hc, hel, hl, he⟩

theorem quickSortRecursive_of_lt {calls : Nat} {data : List α} {n : Int} (hn : n < 2) :
    quickSortRecursive compare calls data n = some data := by
  cases calls <;> exact if_pos hn

-- A call sorts its range, and leaves the items after it alone.
theorem quickSortRecursive_spec (h : TotalPreorder compare) {calls : Nat} {rest : List α}
    (hc : range.length ≤ calls) :
    ∃ sorted, quickSortRecursive compare calls (range ++ rest) range.length = some (sorted ++ rest) ∧
      sorted.Perm range ∧ sorted.Pairwise (compare · · ≤ 0) := by
  induction calls generalizing range rest
  case zero =>
    exact ⟨range, quickSortRecursive_of_lt (by omega), .refl _, pairwise_of_length_lt_two (by omega)⟩
  case succ calls ih =>
    by_cases hlt : (range.length : Int) < 2
    case pos =>
      exact ⟨range, quickSortRecursive_of_lt hlt, .refl _, pairwise_of_length_lt_two (by omega)⟩
    case neg =>
      have hn : 2 ≤ range.length := by omega
      have ⟨pivot, range', l, e, hp, hq, c, hel, hl, he⟩ := quickSortPartition_range h hn
      have hlen := c.perm.length_eq
      have ⟨lower, middle, upper, hr, hll, hlm, hle, hge⟩ := c.parts hel
      subst hr
      simp only [List.length_append] at hlen hlm
      have ⟨lower', hql, hpl, hsl⟩ := @ih lower (middle ++ (upper ++ rest)) (by omega)
      have ⟨upper', hqu, hpu, hsu⟩ := @ih upper rest (by omega)
      have hll' := hpl.length_eq
      refine ⟨lower' ++ (middle ++ upper'), ?_, (hpl.append <| hpu.append_left _).trans c.perm, ?_⟩
      · have hu : (range.length : Int) - l = upper.length := by omega
        have hl' : l = (lower' ++ middle).length := by simp only [List.length_append]; omega
        rw [quickSortRecursive, if_neg hlt]
        simp only [Int.toNat_natCast, List.take_left, List.drop_left, hp, hq, ←hll, List.append_assoc,
          Option.bind_eq_bind, Option.bind_some, hql, hu]
        rw [←List.append_assoc lower', hl', List.drop_left, List.take_left, hqu]
        simp
      · apply h.pairwise_append hsl hsu
        · intro x hx
          exact hle x <| (hpl.append_right _).mem_iff.mp hx
        · intro x hx
          exact hge x <| (hpu.append_left _).mem_iff.mp hx

theorem signed_le (n : Nat) : signed n ≤ n := by
  simp only [signed]
  omega

-- The sequence is sorted up to the position that its length is as an `int`.
theorem seqSort_spec (h : TotalPreorder compare) :
    ∃ sorted, seqSort compare seq = some (sorted ++ seq.drop (signed seq.length).toNat) ∧
      sorted.Perm (seq.take (signed seq.length).toNat) ∧ sorted.Pairwise (compare · · ≤ 0) := by
  have hn := signed_le seq.length
  have hlen : (seq.take (signed seq.length).toNat).length = (signed seq.length).toNat :=
    List.length_take_of_le (by omega)
  by_cases h0 : 0 ≤ signed seq.length
  case pos =>
    have ⟨sorted, hs, hp, hw⟩ := @quickSortRecursive_spec _ _ (seq.take (signed seq.length).toNat) h
      seq.length (seq.drop (signed seq.length).toNat) (by omega)
    rw [hlen, List.take_append_drop, Int.toNat_of_nonneg h0] at hs
    exact ⟨sorted, hs, hp, hw⟩
  case neg =>
    have hz : (signed seq.length).toNat = 0 := by omega
    refine ⟨[], ?_, by simp [hz], .nil⟩
    rw [seqSort, quickSortRecursive_of_lt (by omega), hz]
    rfl

-- The items from the position that the length is as an `int` are left as they are.
theorem sorts_iff (h : TotalPreorder compare) : Sorts compare seq ↔
    (seq.drop (signed seq.length).toNat).Pairwise (compare · · ≤ 0) ∧
      ∀ a ∈ seq.take (signed seq.length).toNat, ∀ b ∈ seq.drop (signed seq.length).toNat,
        compare a b ≤ 0 := by
  have ⟨sorted, hs, hp, hw⟩ := @seqSort_spec _ _ seq h
  constructor
  case mp =>
    intro ⟨sorted', hs', _, hw'⟩
    cases Option.some.inj <| hs.symm.trans hs'
    have ⟨_, hd, hle⟩ := List.pairwise_append.mp hw'
    exact ⟨hd, fun a ha => hle a <| hp.mem_iff.mpr ha⟩
  case mpr =>
    intro ⟨hd, hle⟩
    refine ⟨_, hs, ?_, List.pairwise_append.mpr ⟨hw, hd, fun a ha => hle a <| hp.mem_iff.mp ha⟩⟩
    exact (hp.append_right _).trans <| .of_eq <| List.take_append_drop ..

theorem totalPreorder_sub : TotalPreorder fun a b : Int => a - b where
  lt_zero_iff a b := by omega
  trans a b c h h' := by omega

theorem sorts_three : Sorts (fun a b : Int => a - b) [2, 1, 2] :=
  sorts_iff totalPreorder_sub |>.mpr (by decide)

-- The length of the sequence is negative as an `int`.
theorem not_sorts_replicate {k : Nat} (hk : k = 2 ^ 31 - 1) :
    ¬Sorts (fun a b : Int => a - b) (1 :: List.replicate k 0) := by
  intro ⟨sorted, hs, _, hw⟩
  have hn : signed (1 :: List.replicate k (0 : Int)).length < 2 := by
    simp only [List.length_cons, List.length_replicate, signed]
    omega
  rw [seqSort, quickSortRecursive_of_lt hn] at hs
  cases Option.some.inj hs
  have hr := List.rel_of_pairwise_cons hw <| List.mem_replicate.mpr ⟨by omega, rfl⟩
  exact absurd hr (by decide)

theorem not_sorts : TotalPreorder (fun a b : Int => a - b) ∧
    ¬Sorts (fun a b : Int => a - b) (1 :: List.replicate (2 ^ 31 - 1) 0) :=
  ⟨totalPreorder_sub, not_sorts_replicate rfl⟩

end CfEngine.Libutils
