import CfEngine.Libutils.Strings
import CfEngine.Library.BottomUp
import CfEngine.Library.Chained
import CfEngine.Library.Outcome

open Links

namespace CfEngine

-- Why there is no result: an address without a cell is used, a number is too large for an `int`, or the program has
-- not come to an end yet.
inductive SortError
  | fault
  | overflow
  | running
  deriving DecidableEq

abbrev Sorting : Type → Type := Except SortError

section
variable {α : Type} (less : α → α → Bool)

def getCell (links : Links α) (e : Nat) : Sorting (Link α) :=
  match links.get e with
  | none      => .error .fault
  | some cell => .ok cell

def putNext (links : Links α) (e : Nat) (next : Option Nat) : Sorting (Links α) := do
  let cell ← getCell links e
  .ok <| links.put e <| some { cell with next }

-- The next power of two, up to which an `int` goes.
def intCount (n : Nat) : Sorting Nat :=
  if n < 2 ^ 31 then .ok n else .error .overflow

-- At most `n` places along, with the number of those that there are.
def stepAlong (links : Links α) : Nat → Nat → Sorting (Option Nat × Nat)
  | 0, q     => .ok (some q, 0)
  | n + 1, q => do
    match (← getCell links q).next with
    | none   => .ok (none, 1)
    | some q => do
      let (q, psize) ← stepAlong links n q
      .ok (q, psize + 1)

structure Merging (α : Type) where
  links : Links α
  p     : Option Nat
  q     : Option Nat
  psize : Nat
  qsize : Nat
  list  : Option Nat
  tail  : Option Nat

namespace Merging

def takeP (s : Merging α) : Sorting (Nat × Merging α) :=
  match s.p with
  | none   => .error .fault
  | some e => do
    let cell ← getCell s.links e
    .ok (e, { s with p := cell.next, psize := s.psize - 1 })

def takeQ (s : Merging α) : Sorting (Nat × Merging α) :=
  match s.q with
  | none   => .error .fault
  | some e => do
    let cell ← getCell s.links e
    .ok (e, { s with q := cell.next, qsize := s.qsize - 1 })

def lessPQ (s : Merging α) : Sorting Bool :=
  match s.p, s.q with
  | some p, some q => do
    let lhs ← getCell s.links p
    let rhs ← getCell s.links q
    .ok <| less lhs.payload rhs.payload
  | _, _           => .error .fault

-- The next element, which comes from the left list if that one is less.
def choose (s : Merging α) : Sorting (Nat × Merging α) :=
  if s.psize = 0 then
    s.takeQ
  else if s.qsize = 0 ∨ s.q = none then
    s.takeP
  else do
    if ← s.lessPQ less then s.takeP else s.takeQ

-- The element is added to the merged list.
def add (s : Merging α) (e : Nat) : Sorting (Merging α) :=
  match s.tail with
  | some tail => do
    let links ← putNext s.links tail (some e)
    .ok { s with links, tail := some e }
  | none      => .ok { s with list := some e, tail := some e }

def goesOn (s : Merging α) : Prop :=
  s.psize > 0 ∨ (s.qsize > 0 ∧ s.q ≠ none)

instance (s : Merging α) : Decidable s.goesOn :=
  inferInstanceAs <| Decidable (_ ∨ _)

def merge : Nat → Merging α → Sorting (Merging α)
  | 0, s     => if s.goesOn then .error .running else .ok s
  | n + 1, s =>
    if s.goesOn then do
      let (e, s) ← s.choose less
      merge n (← s.add e)
    else
      .ok s

end Merging

structure Pass (α : Type) where
  links   : Links α
  p       : Option Nat
  list    : Option Nat
  tail    : Option Nat
  nmerges : Nat

namespace Pass

-- The next two lists are merged.
def step (insize : Nat) (s : Pass α) (p : Nat) : Sorting (Pass α) := do
  let nmerges ← intCount (s.nmerges + 1)
  let (q, psize) ← stepAlong s.links insize p
  let merged ← Merging.merge less (2 * insize)
    { links := s.links, p := some p, q, psize, qsize := insize, list := s.list, tail := s.tail }
  .ok { links := merged.links, p := merged.q, list := merged.list, tail := merged.tail, nmerges }

def run (insize : Nat) : Nat → Pass α → Sorting (Pass α)
  | 0, s     => if s.p = none then .ok s else .error .running
  | n + 1, s =>
    match s.p with
    | none   => .ok s
    | some p => do run insize n (← s.step less insize p)

end Pass

-- The loops that have no bound of their own run out of `fuel`.
def sortLoop (fuel : Nat) : Nat → Nat → Links α → Option Nat → Sorting (Links α × Option Nat)
  | 0, _, _, _                  => .error .running
  | n + 1, insize, links, list => do
    let s ← Pass.run less insize fuel { links, p := list, list := none, tail := none, nmerges := 0 }
    match s.tail with
    | none      => .error .fault
    | some tail =>
      let links ← putNext s.links tail none
      if s.nmerges ≤ 1 then
        .ok (links, s.list)
      else do
        sortLoop fuel n (← intCount (insize * 2)) links s.list

def sort (fuel : Nat) (links : Links α) (list : Option Nat) : Sorting (Links α × Option Nat) :=
  match list with
  | none   => .ok (links, none)
  | some p => sortLoop less fuel fuel 1 links (some p)

end

structure ItemData where
  name    : CString
  classes : CString
  counter : Int
  time    : Int

def itemNameLess (lhs rhs : ItemData) : Bool :=
  CString.strcmp lhs.name rhs.name < 0

def itemClassesLess (lhs rhs : ItemData) : Bool :=
  CString.strcmp lhs.classes rhs.classes < 0

def itemCounterMore (lhs rhs : ItemData) : Bool :=
  lhs.counter > rhs.counter

def itemTimeMore (lhs rhs : ItemData) : Bool :=
  lhs.time > rhs.time

def rlistItemLess (lhs rhs : CString) : Bool :=
  CString.strcmp lhs rhs < 0

def sortItemListNames : Nat → Links ItemData → Option Nat → Sorting (Links ItemData × Option Nat) :=
  sort itemNameLess

def sortItemListClasses : Nat → Links ItemData → Option Nat → Sorting (Links ItemData × Option Nat) :=
  sort itemClassesLess

def sortItemListCounters : Nat → Links ItemData → Option Nat → Sorting (Links ItemData × Option Nat) :=
  sort itemCounterMore

def sortItemListTimes : Nat → Links ItemData → Option Nat → Sorting (Links ItemData × Option Nat) :=
  sort itemTimeMore

def linkedAlphaSortRListNames : Nat → Links CString → Option Nat → Sorting (Links CString × Option Nat) :=
  sort rlistItemLess

section
variable {α : Type} {less : α → α → Bool} {links : Links α} {O A B R L : List (Nat × α)} {c : Nat × α} {n : Option Nat}
  {s : Merging α}

-- The elements by what they hold.
def lessCells (less : α → α → Bool) (c d : Nat × α) : Bool :=
  less c.2 d.2

-- The elements `O` have been merged, `A` and `B` are left of the two lists, and `R` comes behind these.
structure Merging.Holds (s : Merging α) (O A B R : List (Nat × α)) : Prop where
  out   : ∃ n, Chained s.links s.list O n
  left  : ∃ n, Chained s.links s.p A n
  right : Chained s.links s.q (B ++ R) none
  nodup : ((O ++ (A ++ (B ++ R))).map Prod.fst).Nodup
  tail  : s.tail = O.getLast?.map Prod.fst
  psize : s.psize = A.length
  qsize : B.length ≤ s.qsize ∧ (s.qsize ≤ B.length ∨ R = [])

theorem getCell_eq {link : Link α} {a : Nat} (h : links.get a = some link) : getCell links a = .ok link := by
  rw [getCell, h]

theorem add_spec {n₀ : Option Nat} (hout : Chained s.links s.list O n₀) (htail : s.tail = O.getLast?.map Prod.fst)
    (hnodup : ((O ++ [c]).map Prod.fst).Nodup) (hget : s.links.get c.1 = some ⟨c.2, n⟩) :
    ∃ links list, s.add c.1 = .ok { s with links, list, tail := some c.1 } ∧ Chained links list (O ++ [c]) n ∧
      ∀ a ∉ O.map Prod.fst, links.get a = s.links.get a := by
  rcases List.eq_nil_or_concat O with rfl | ⟨O, ⟨t, x⟩, rfl⟩
  · refine ⟨s.links, some c.1, ?_, ⟨rfl, hget, rfl⟩, fun _ _ => rfl⟩
    rw [Merging.add, htail]
    rfl
  · rw [List.concat_eq_append] at *
    have htail : s.tail = some t := by rw [htail, List.getLast?_concat]; rfl
    have hcell := hout.get_eq
    have hlt := lt_length_of_get hcell
    have hput {a : Nat} (ha : a ≠ t) : get (s.links.put t <| some ⟨x, some c.1⟩) a = s.links.get a := by
      rw [get_put hlt, if_neg ha]
    rw [List.map_append, List.map_append, List.append_assoc] at hnodup
    obtain ⟨hO, htc, hdisjoint⟩ := List.nodup_append.mp hnodup
    have hct : c.1 ≠ t := fun he => by simp [he] at htc
    refine ⟨s.links.put t <| some ⟨x, some c.1⟩, s.list, ?_, ?_, fun a ha => hput ?_⟩
    · rw [Merging.add, htail]
      simp only [putNext, getCell_eq hcell, Except.ok_bind_eq]
    · rw [List.append_assoc]
      refine chained_append.mpr ⟨?_, rfl, ?_, rfl, ?_, rfl⟩
      · refine (chained_append.mp hout).left.put_of_notMem hlt fun ht => ?_
        exact hdisjoint t ht t List.mem_cons_self rfl
      · rw [get_put hlt, if_pos rfl]
        rfl
      · exact (hput hct).trans hget
    · rintro rfl
      exact ha <| by simp

-- What is left of the lists is not among the cells that are changed.
theorem holds_add {n₀ : Option Nat} (hout : Chained s.links s.list O n₀) (htail : s.tail = O.getLast?.map Prod.fst)
    (hget : s.links.get c.1 = some ⟨c.2, n⟩) (hleft : ∃ n, Chained s.links s.p A n)
    (hright : Chained s.links s.q (B ++ R) none) (hnodup : ((O ++ [c] ++ (A ++ (B ++ R))).map Prod.fst).Nodup)
    (hpsize : s.psize = A.length) (hqsize : B.length ≤ s.qsize ∧ (s.qsize ≤ B.length ∨ R = [])) :
    ∃ s', s.add c.1 = .ok s' ∧ s'.Holds (O ++ [c]) A B R := by
  have hsplit := hnodup
  rw [List.map_append] at hsplit
  obtain ⟨hO, _, hdisjoint⟩ := List.nodup_append.mp hsplit
  obtain ⟨links, list, hadd, hchain, hframe⟩ := add_spec hout htail hO hget
  have hother {L : List (Nat × α)} (hL : ∀ d ∈ L, d ∈ A ++ (B ++ R)) :
      ∀ a ∈ L.map Prod.fst, links.get a = s.links.get a := by
    intro a ha
    obtain ⟨d, hd, rfl⟩ := List.mem_map.mp ha
    refine hframe d.1 fun hmem => hdisjoint d.1 ?_ d.1 (List.mem_map_of_mem <| hL d hd) rfl
    rw [List.map_append]
    exact List.mem_append_left _ hmem
  obtain ⟨n', hleft⟩ := hleft
  refine ⟨{ s with links, list, tail := some c.1 }, hadd, ⟨n, hchain⟩, ⟨n', ?_⟩, ?_, hnodup, ?_, hpsize, hqsize⟩
  · exact hleft.congr <| hother fun d hd => List.mem_append_left _ hd
  · exact hright.congr <| hother fun d hd => List.mem_append_right _ hd
  · rw [List.getLast?_concat]
    rfl

theorem Merging.Holds.takeP (h : s.Holds O (c :: A) B R) :
    ∃ t s', s.takeP = .ok (c.1, t) ∧ t.add c.1 = .ok s' ∧ s'.Holds (O ++ [c]) A B R := by
  obtain ⟨⟨n₀, hout⟩, ⟨n, hp, hget, hleft⟩, hright, hnodup, htail, hpsize, hqsize⟩ := h
  have hnodup' : ((O ++ [c] ++ (A ++ (B ++ R))).map Prod.fst).Nodup := by
    rwa [List.append_assoc, List.singleton_append]
  let t := { s with p := front A n, psize := s.psize - 1 }
  have hsize : t.psize = A.length := by
    show s.psize - 1 = _
    rw [hpsize]
    rfl
  obtain ⟨s', hadd, hholds⟩ := @holds_add α O A B R c (front A n) t n₀ hout htail hget ⟨n, hleft⟩ hright hnodup' hsize
    hqsize
  refine ⟨t, s', ?_, hadd, hholds⟩
  simp only [Merging.takeP, hp, getCell_eq hget, Except.ok_bind_eq, t]

theorem Merging.Holds.takeQ (h : s.Holds O A (c :: B) R) :
    ∃ t s', s.takeQ = .ok (c.1, t) ∧ t.add c.1 = .ok s' ∧ s'.Holds (O ++ [c]) A B R := by
  obtain ⟨⟨n₀, hout⟩, hleft, ⟨hq, hget, hright⟩, hnodup, htail, hpsize, hqsize⟩ := h
  have hperm : (O ++ (A ++ (c :: B ++ R))).Perm (O ++ [c] ++ (A ++ (B ++ R))) := by
    rw [List.append_assoc]
    exact List.perm_middle.append_left O
  let t := { s with q := front (B ++ R) none, qsize := s.qsize - 1 }
  have hsize : B.length ≤ t.qsize ∧ (t.qsize ≤ B.length ∨ R = []) := by
    rw [List.length_cons] at hqsize
    exact ⟨Nat.le_sub_one_of_lt hqsize.left, hqsize.right.imp_left Nat.sub_le_of_le_add⟩
  obtain ⟨s', hadd, hholds⟩ := @holds_add α O A B R c (front (B ++ R) none) t n₀ hout htail hget hleft hright
    ((hperm.map Prod.fst).nodup_iff.mp hnodup) hpsize hsize
  refine ⟨t, s', ?_, hadd, hholds⟩
  simp only [Merging.takeQ, hq, getCell_eq hget, Except.ok_bind_eq, t]
  rfl

theorem merge_done {n : Nat} (h : s.Holds O [] [] R) : s.merge less n = .ok s := by
  have hstop : ¬s.goesOn := by
    rintro (hp | ⟨hq, hne⟩)
    · exact Nat.ne_of_gt hp h.psize
    · rcases h.qsize.right with hle | rfl
      · exact Nat.not_lt.mpr hle hq
      · exact hne h.right
  cases n <;> rw [Merging.merge, if_neg hstop]

theorem merge_step {t s' : Merging α} {e n : Nat} (hgo : s.goesOn)
    (hchoose : s.choose less = .ok (e, t)) (hadd : t.add e = .ok s') : s.merge less (n + 1) = s'.merge less n := by
  rw [Merging.merge, if_pos hgo, hchoose]
  simp only [Except.ok_bind_eq, hadd]

theorem lessPQ_eq {a b : Nat × α} (h : s.Holds O (a :: A) (b :: B) R) : s.lessPQ less = .ok (lessCells less a b) := by
  obtain ⟨n, hp, hget, _⟩ := h.left
  obtain ⟨hq, hgetq, _⟩ := h.right
  simp only [Merging.lessPQ, hp, hq, getCell_eq hget, getCell_eq hgetq, Except.ok_bind_eq]
  rfl

theorem merge_spec {n : Nat} (h : s.Holds O A B R) (hn : A.length + B.length ≤ n) :
    ∃ s', s.merge less n = .ok s' ∧ s'.Holds (O ++ A.merge B (lessCells less)) [] [] R := by
  induction n generalizing s O A B
  case zero      =>
    obtain rfl : A = [] := List.eq_nil_of_length_eq_zero (by omega)
    obtain rfl : B = [] := List.eq_nil_of_length_eq_zero (by omega)
    exact ⟨s, merge_done h, by rwa [List.nil_merge, List.append_nil]⟩
  case succ n ih =>
    have htakeP {a : Nat × α} {A' : List (Nat × α)} (hA : A = a :: A') (hchoose : s.choose less = s.takeP)
        (hmerge : A.merge B (lessCells less) = a :: A'.merge B (lessCells less)) :
        ∃ s', s.merge less (n + 1) = .ok s' ∧ s'.Holds (O ++ A.merge B (lessCells less)) [] [] R := by
      subst hA
      obtain ⟨t, s', htake, hadd, hholds⟩ := h.takeP
      obtain ⟨s'', hs, hdone⟩ := ih hholds <| Nat.le_of_succ_le_succ <| by rwa [←Nat.succ_add]
      refine ⟨s'', (merge_step (.inl ?_) (hchoose.trans htake) hadd).trans hs, ?_⟩
      · rw [h.psize]
        exact Nat.succ_pos _
      · rwa [List.append_assoc, List.singleton_append, ←hmerge] at hdone
    have htakeQ {b : Nat × α} {B' : List (Nat × α)} (hB : B = b :: B') (hchoose : s.choose less = s.takeQ)
        (hmerge : A.merge B (lessCells less) = b :: A.merge B' (lessCells less)) :
        ∃ s', s.merge less (n + 1) = .ok s' ∧ s'.Holds (O ++ A.merge B (lessCells less)) [] [] R := by
      subst hB
      obtain ⟨t, s', htake, hadd, hholds⟩ := h.takeQ
      obtain ⟨s'', hs, hdone⟩ := ih hholds <| Nat.le_of_succ_le_succ <| by rwa [←Nat.add_succ]
      refine ⟨s'', (merge_step (.inr ⟨?_, ?_⟩) (hchoose.trans htake) hadd).trans hs, ?_⟩
      · exact Nat.lt_of_lt_of_le (Nat.succ_pos _) h.qsize.left
      · rw [h.right.left]
        exact Option.some_ne_none _
      · rwa [List.append_assoc, List.singleton_append, ←hmerge] at hdone
    cases A
    case nil       =>
      cases B
      case nil       => exact ⟨s, merge_done h, by rwa [List.nil_merge, List.append_nil]⟩
      case cons b B =>
        refine htakeQ rfl ?_ (by rw [List.nil_merge, List.nil_merge])
        have hzero : s.psize = 0 := h.psize
        rw [Merging.choose, if_pos hzero]
    case cons a A  =>
      have hpsize : ¬s.psize = 0 := by
        rw [h.psize]
        exact Nat.succ_ne_zero _
      cases B
      case nil       =>
        have hnone : s.qsize = 0 ∨ s.q = none := by
          rcases h.qsize.right with hle | rfl
          · exact .inl <| Nat.eq_zero_of_le_zero hle
          · exact .inr h.right
        refine htakeP rfl ?_ (by rw [List.merge_right, List.merge_right])
        rw [Merging.choose, if_neg hpsize, if_pos hnone]
      case cons b B =>
        have hsome : ¬(s.qsize = 0 ∨ s.q = none) := by
          have hqsize := h.qsize.left
          rw [List.length_cons] at hqsize
          rintro (hz | hz)
          · omega
          · cases hz.symm.trans h.right.left
        have hchoose : s.choose less = if lessCells less a b then s.takeP else s.takeQ := by
          rw [Merging.choose, if_neg hpsize, if_neg hsome, lessPQ_eq h]
          rfl
        by_cases hless : lessCells less a b
        case pos => exact htakeP rfl (hchoose.trans <| if_pos hless) (List.cons_merge_cons_pos _ _ _ hless)
        case neg => exact htakeQ rfl (hchoose.trans <| if_neg hless) (List.cons_merge_cons_neg _ _ _ hless)

theorem stepAlong_eq {k : Nat} {p : Option Nat} (h : Chained links p (c :: L) none) :
    stepAlong links k c.1 = .ok (front ((c :: L).drop k) none, min k (L.length + 1)) := by
  induction k generalizing c L p
  case zero      =>
    rw [stepAlong, Nat.zero_min]
    rfl
  case succ k ih =>
    obtain ⟨_, hget, hrest⟩ := h
    rw [stepAlong, getCell_eq hget]
    cases L
    case nil      =>
      rw [Nat.min_eq_right (by simp), List.drop_succ_cons, List.drop_nil]
      rfl
    case cons d L =>
      rw [List.drop_succ_cons, List.length_cons, Nat.add_min_add_right]
      simp only [Except.ok_bind_eq, front_cons, ih hrest]

-- The elements `O` have been merged, and `L` are left.
structure Pass.Holds (s : Pass α) (O L : List (Nat × α)) : Prop where
  out   : ∃ n, Chained s.links s.list O n
  left  : Chained s.links s.p L none
  nodup : ((O ++ L).map Prod.fst).Nodup
  tail  : s.tail = O.getLast?.map Prod.fst

section
variable {s : Pass α} {k n : Nat}

theorem Pass.Holds.step (h : s.Holds O (c :: L)) (hm : s.nmerges + 1 < 2 ^ 31) :
    ∃ s', s.step less k c.1 = .ok s' ∧ s'.nmerges = s.nmerges + 1 ∧
      s'.Holds (O ++ ((c :: L).take k).merge (((c :: L).drop k).take k) (lessCells less)) ((c :: L).drop (2 * k)) := by
  obtain ⟨hout, hleft, hnodup, htail⟩ := h
  have hrest : ((c :: L).drop k).take k ++ (c :: L).drop (2 * k) = (c :: L).drop k := by
    rw [Nat.two_mul, ←List.drop_drop, List.take_append_drop]
  have hall : (c :: L).take k ++ (((c :: L).drop k).take k ++ (c :: L).drop (2 * k)) = c :: L := by
    rw [hrest, List.take_append_drop]
  have hsplit := hleft
  rw [←List.take_append_drop k (c :: L), chained_append] at hsplit
  have hmerging : Merging.Holds
      { links := s.links, p := some c.1, q := front ((c :: L).drop k) none, psize := min k (L.length + 1), qsize := k,
        list := s.list, tail := s.tail }
      O ((c :: L).take k) (((c :: L).drop k).take k) ((c :: L).drop (2 * k)) := by
    refine ⟨hout, ⟨_, hleft.left ▸ hsplit.left⟩, hrest.symm ▸ hsplit.right, hall.symm ▸ hnodup, htail, ?_, ?_, ?_⟩
    · rw [List.length_take, List.length_cons]
    · exact List.length_take_le _ _
    · by_cases hlen : 2 * k ≤ (c :: L).length
      case pos =>
        left
        rw [List.length_take, List.length_drop]
        show k ≤ min k ((c :: L).length - k)
        omega
      case neg => exact .inr <| List.drop_eq_nil_of_le <| Nat.le_of_lt <| Nat.lt_of_not_le hlen
  obtain ⟨merged, hmerge, hdone⟩ := @merge_spec α less _ _ _ _ _ (2 * k) hmerging <| by
    rw [List.length_take, List.length_take]
    omega
  refine ⟨{ links := merged.links, p := merged.q, list := merged.list, tail := merged.tail, nmerges := s.nmerges + 1 },
    ?_, rfl, hdone.out, hdone.right, ?_, hdone.tail⟩
  · rw [Pass.step, intCount, if_pos hm, stepAlong_eq hleft]
    simp only [Except.ok_bind_eq, hmerge]
  · have hnodup := hdone.nodup
    rwa [List.nil_append, List.nil_append] at hnodup

theorem run_done (h : s.Holds O []) : s.run less k n = .ok s := by
  have hnone : s.p = none := h.left
  cases n <;> simp only [Pass.run, hnone, if_true]

-- Unless the loop runs out of fuel or too many lists are counted, a pass is that over the elements.
theorem run_spec (h : s.Holds O L) (hk : 0 < k) :
    (∃ s', s.run less k n = .ok s' ∧ s'.nmerges = s.nmerges + BottomUp.merges k L.length ∧
      s'.Holds (O ++ BottomUp.pass (lessCells less) k L) []) ∨
    ((n < L.length ∨ 2 ^ 31 ≤ s.nmerges + BottomUp.merges k L.length) ∧ ∃ e, s.run less k n = .error e) := by
  induction n generalizing s O L
  all_goals
    cases L
    case nil =>
      refine .inl ⟨s, run_done h, ?_, by rwa [BottomUp.pass_nil, List.append_nil]⟩
      rw [List.length_nil, BottomUp.merges, Nat.zero_add, Nat.div_eq_of_lt (by omega), Nat.add_zero]
  case zero.cons c L      =>
    refine .inr ⟨.inl <| Nat.succ_pos _, .running, ?_⟩
    rw [Pass.run, if_neg]
    rw [h.left.left]
    exact Option.some_ne_none _
  case succ.cons n ih c L =>
    have hmerges := BottomUp.merges_succ hk (n := (c :: L).length) (Nat.succ_pos _)
    have hpass := @BottomUp.pass_of_ne_nil _ (lessCells less) k _ (List.cons_ne_nil c L) hk
    have hsome : s.p = some c.1 := h.left.left
    rw [←List.length_drop] at hmerges
    rw [hmerges]
    simp only [Pass.run, hsome]
    by_cases hm : s.nmerges + 1 < 2 ^ 31
    case pos =>
      obtain ⟨s', hstep, hcount, hholds⟩ := @Pass.Holds.step _ less _ _ _ _ k h hm
      simp only [hstep, Except.ok_bind_eq]
      rcases ih hholds with ⟨s'', hrun, hcount', hdone⟩ | ⟨hwhy, herror⟩
      · refine .inl ⟨s'', hrun, by omega, ?_⟩
        rwa [List.append_assoc, ←hpass] at hdone
      · refine .inr ⟨?_, herror⟩
        have hshorter : ((c :: L).drop (2 * k)).length < (c :: L).length := by
          rw [List.length_drop, List.length_cons]
          omega
        omega
    case neg =>
      refine .inr ⟨.inr (by omega), .overflow, ?_⟩
      rw [Pass.step, intCount, if_neg hm]
      rfl

-- Without a number that is too large, the list that a pass leaves ends with `NULL`.
theorem putNext_spec (h : s.Holds O []) (hne : O ≠ []) :
    ∃ tail links', s.tail = some tail ∧ putNext s.links tail none = .ok links' ∧ Chained links' s.list O none := by
  obtain ⟨⟨n₀, hout⟩, _, hnodup, htail⟩ := h
  obtain ⟨O, ⟨t, x⟩, rfl⟩ := (List.eq_nil_or_concat O).resolve_left hne
  rw [List.concat_eq_append] at *
  have hcell := hout.get_eq
  have hlt := lt_length_of_get hcell
  rw [List.append_nil, List.map_append] at hnodup
  refine ⟨t, s.links.put t <| some ⟨x, none⟩, ?_, ?_, chained_append.mpr ⟨?_, rfl, ?_, rfl⟩⟩
  · rw [htail, List.getLast?_concat]
    rfl
  · simp only [putNext, getCell_eq hcell, Except.ok_bind_eq]
  · refine (chained_append.mp hout).left.put_of_notMem hlt fun ht => ?_
    exact (List.nodup_append.mp hnodup).right.right t ht t List.mem_cons_self rfl
  · rw [get_put hlt, if_pos rfl]
    rfl

end

section
variable {p : Option Nat} {as : List (Nat × α)} {fuel k n : Nat}

-- One pass over a whole list, and what is done next.
theorem sortLoop_succ (h : Chained links p as none) (hne : as ≠ []) (hk : 0 < k) :
    (∃ links' p', Chained links' p' (BottomUp.pass (lessCells less) k as) none ∧
      sortLoop less fuel (n + 1) k links p =
        if BottomUp.merges k as.length ≤ 1 then .ok (links', p')
        else do sortLoop less fuel n (← intCount (k * 2)) links' p') ∨
    ((fuel < as.length ∨ 2 ^ 31 ≤ BottomUp.merges k as.length) ∧
      ∃ e, sortLoop less fuel (n + 1) k links p = .error e) := by
  have hholds : Pass.Holds { links, p, list := none, tail := none, nmerges := 0 } [] as :=
    ⟨⟨none, rfl⟩, h, h.nodup, rfl⟩
  have hperm := @BottomUp.pass_perm _ (lessCells less) k as hk
  rcases @run_spec α less [] as _ k fuel hholds hk with ⟨s, hrun, hcount, hdone⟩ | ⟨hwhy, e, he⟩
  · obtain ⟨tail, links', htail, hput, hchain⟩ := putNext_spec hdone fun hnil =>
      hne (hperm.symm.trans <| .of_eq hnil).eq_nil
    refine .inl ⟨links', s.list, hchain, ?_⟩
    rw [Nat.zero_add] at hcount
    simp only [sortLoop, hrun, Except.ok_bind_eq, htail, hput, hcount]
  · rw [Nat.zero_add] at hwhy
    refine .inr ⟨hwhy, e, ?_⟩
    simp only [sortLoop, he]
    rfl

-- A longer list than the counters allow is never done.
theorem sortLoop_of_lt (h : Chained links p as none) (hlen : 2 ^ 31 < as.length) {j : Nat} (hj : j ≤ 30) :
    ∃ e, sortLoop less fuel n (2 ^ j) links p = .error e := by
  induction n generalizing links p as j
  case zero      => exact ⟨.running, rfl⟩
  case succ n ih =>
    have hk : 0 < 2 ^ j := Nat.two_pow_pos j
    have hne : as ≠ [] := List.ne_nil_of_length_pos (by omega)
    rcases @sortLoop_succ α less links p as fuel (2 ^ j) n h hne hk with ⟨links', p', hchain, heq⟩ | ⟨_, he⟩
    · have hpow : 2 ^ (j + 1) ≤ 2 ^ 31 := Nat.pow_le_pow_right (by decide) (by omega)
      have hmany : ¬BottomUp.merges (2 ^ j) as.length ≤ 1 := by
        rw [BottomUp.merges_le_one_iff hk, ←Nat.pow_succ']
        omega
      rw [heq, if_neg hmany, ←Nat.pow_succ, intCount]
      split
      case isTrue hlt =>
        refine ih hchain ?_ ?_
        · rwa [(BottomUp.pass_perm hk).length_eq]
        · have hexp := (Nat.pow_lt_pow_iff_right (by decide)).mp hlt
          omega
      case isFalse    => exact ⟨.overflow, rfl⟩
    · exact he

instance [IsStrictWeakOrder α (less · ·)] : IsStrictWeakOrder (Nat × α) (lessCells less · ·) :=
  inferInstanceAs <| IsStrictWeakOrder (Nat × α) (Function.onFun (less · ·) Prod.snd)

-- Each pass doubles the length of the runs that are sorted.
theorem sortLoop_sorted [IsStrictWeakOrder α (less · ·)] (h : Chained links p as none) (hne : as ≠ [])
    (hlen : as.length ≤ 2 ^ 31) (hk : 0 < k) (hruns : BottomUp.SortedRuns (lessCells less) k as)
    (hfuel : as.length ≤ fuel) (hn : 0 < n ∧ as.length ≤ k * 2 ^ n) :
    ∃ links' p' as', sortLoop less fuel n k links p = .ok (links', p') ∧ Chained links' p' as' none ∧ as'.Perm as ∧
      BottomUp.Sorted (lessCells less) as' := by
  induction n generalizing links p as k
  case zero      => exact absurd hn.left <| Nat.lt_irrefl 0
  case succ n ih =>
    have hperm := @BottomUp.pass_perm _ (lessCells less) k as hk
    have hpass := BottomUp.sortedRuns_pass hk hruns
    have hcount : BottomUp.merges k as.length < 2 ^ 31 := by
      rw [BottomUp.merges, Nat.div_lt_iff_lt_mul (by omega)]
      have hmul : 2 ^ 31 * 2 + (2 * k - 2) ≤ 2 ^ 31 * (2 * k) := by omega
      omega
    rcases @sortLoop_succ α less links p as fuel k n h hne hk with ⟨links', p', hchain, heq⟩ | ⟨hwhy, _⟩
    · rw [heq]
      by_cases hone : BottomUp.merges k as.length ≤ 1
      case pos =>
        rw [if_pos hone]
        refine ⟨links', p', _, rfl, hchain, hperm, hpass.sorted ?_⟩
        rw [hperm.length_eq]
        exact (BottomUp.merges_le_one_iff hk).mp hone
      case neg =>
        have hlong := mt (BottomUp.merges_le_one_iff hk).mpr hone
        have hint : intCount (k * 2) = .ok (2 * k) := by
          rw [intCount, if_pos (by omega), Nat.mul_comm]
        rw [if_neg hone, hint, Except.ok_bind_eq]
        have hmore : 0 < n ∧ as.length ≤ 2 * k * 2 ^ n := by
          have hpow : k * 2 ^ (n + 1) = 2 * k * 2 ^ n := by
            rw [Nat.pow_succ, Nat.mul_comm (2 ^ n), ←Nat.mul_assoc, Nat.mul_comm k]
          refine ⟨Nat.pos_of_ne_zero ?_, hpow ▸ hn.right⟩
          rintro rfl
          omega
        have hne' : BottomUp.pass (lessCells less) k as ≠ [] := fun hnil => hne (hperm.symm.trans <| .of_eq hnil).eq_nil
        obtain ⟨links'', p'', as', hloop, hchain', hperm', hsorted⟩ := ih hchain hne' (by rwa [hperm.length_eq])
          (by omega) hpass (by rwa [hperm.length_eq]) (by rwa [hperm.length_eq])
        exact ⟨links'', p'', as', hloop, hchain', hperm'.trans hperm, hsorted⟩
    · omega

end
end

-- With enough fuel, the result is a list of the same elements in which none is less than an earlier one.
def Sorts {α : Type} (sorting : Nat → Links α → Option Nat → Sorting (Links α × Option Nat)) (less : α → α → Bool)
    (links : Links α) (p : Option Nat) (as : List (Nat × α)) : Prop :=
  ∃ N, ∀ fuel ≥ N, ∃ links' p' as', sorting fuel links p = .ok (links', p') ∧ Chained links' p' as' none ∧
    as'.Perm as ∧ as'.Pairwise fun c d => ¬less d.2 c.2

theorem sorts_less_iff {α : Type} {less : α → α → Bool} [IsStrictWeakOrder α (less · ·)] {links : Links α}
    {p : Option Nat} {as : List (Nat × α)} (h : Chained links p as none) :
    Sorts (sort less) less links p as ↔ as.length ≤ 2 ^ 31 := by
  constructor
  case mp  =>
    rintro ⟨N, hN⟩
    obtain ⟨links', p', as', hsort, _⟩ := hN N <| Nat.le_refl N
    by_contra hlen
    cases as
    case nil       => exact hlen <| Nat.zero_le _
    case cons c as =>
      obtain ⟨e, he⟩ := @sortLoop_of_lt α less links p _ N N h (Nat.lt_of_not_le hlen) 0 (by decide)
      rw [h.left] at hsort he
      cases (he.symm.trans hsort)
  case mpr =>
    intro hlen
    cases as
    case nil       =>
      refine ⟨0, fun fuel _ => ⟨links, none, [], ?_, rfl, .refl _, .nil⟩⟩
      obtain rfl : p = none := h
      rfl
    case cons c as =>
      refine ⟨(c :: as).length, fun fuel hfuel => ?_⟩
      have hpow : fuel < 2 ^ fuel := Nat.lt_two_pow_self
      obtain ⟨links', p', as', hloop, hchain, hperm, hsorted⟩ := @sortLoop_sorted α less links p _ fuel 1 fuel _ h
        (List.cons_ne_nil c as) hlen Nat.one_pos BottomUp.sortedRuns_one hfuel
        ⟨Nat.lt_of_lt_of_le (Nat.succ_pos _) hfuel, by omega⟩
      rw [h.left] at hloop ⊢
      exact ⟨links', p', as', hloop, hchain, hperm, hsorted⟩

instance : IsStrictWeakOrder CString (rlistItemLess · ·) where
  irrefl a           := by simpa [rlistItemLess] using CString.strcmp_irrefl a
  trans a b c        := by simpa [rlistItemLess] using CString.strcmp_trans
  incomp_trans a b c := by
    have hsame {a b : CString} (h : ¬rlistItemLess a b ∧ ¬rlistItemLess b a) : a = b := by
      have hswap := CString.strcmp_swap a b
      simp only [rlistItemLess, decide_eq_true_eq] at h
      exact CString.strcmp_eq_zero_iff.mp (by omega)
    intro hab hbc
    obtain rfl := hsame hab
    exact hbc

instance : IsStrictWeakOrder ItemData (itemNameLess · ·) :=
  inferInstanceAs <| IsStrictWeakOrder ItemData (Function.onFun (rlistItemLess · ·) ItemData.name)

instance : IsStrictWeakOrder ItemData (itemClassesLess · ·) :=
  inferInstanceAs <| IsStrictWeakOrder ItemData (Function.onFun (rlistItemLess · ·) ItemData.classes)

-- Numbers in descending order.
theorem isStrictWeakOrder_more {f : ItemData → Int} :
    IsStrictWeakOrder ItemData fun lhs rhs => decide (f lhs > f rhs) where
  irrefl a           := by simp
  trans a b c        := by
    simp only [decide_eq_true_eq]
    omega
  incomp_trans a b c := by
    simp only [decide_eq_true_eq]
    omega

instance : IsStrictWeakOrder ItemData (itemCounterMore · ·) :=
  isStrictWeakOrder_more

instance : IsStrictWeakOrder ItemData (itemTimeMore · ·) :=
  isStrictWeakOrder_more

-- A list of any length, in ascending addresses.
theorem exists_chained {α : Type} (x : α) (n : Nat) :
    ∃ (links : Links α) (p : Option Nat) (as : List (Nat × α)), Chained links p as none ∧ as.length = n := by
  induction n
  case zero      => exact ⟨[], none, [], rfl, rfl⟩
  case succ n ih =>
    obtain ⟨links, p, as, h, hlen⟩ := ih
    exact ⟨_, _, _, h.cons (y := x), congrArg (· + 1) hlen⟩

-- The sorting functions do what they should if and only if the length of the longest run that is asked for fits.
theorem sort_iff {α : Type} (less : α → α → Bool) [IsStrictWeakOrder α (less · ·)] (links : Links α) (p : Option Nat)
    (as : List (Nat × α)) (h : Chained links p as none) :
    (Sorts (sort less) less links p as ↔ as.length ≤ 2 ^ 31) ∧
    (∀ (links : Links ItemData) (p : Option Nat) (as : List (Nat × ItemData)), Chained links p as none →
      (Sorts sortItemListNames itemNameLess links p as ↔ as.length ≤ 2 ^ 31) ∧
      (Sorts sortItemListClasses itemClassesLess links p as ↔ as.length ≤ 2 ^ 31) ∧
      (Sorts sortItemListCounters itemCounterMore links p as ↔ as.length ≤ 2 ^ 31) ∧
      (Sorts sortItemListTimes itemTimeMore links p as ↔ as.length ≤ 2 ^ 31)) ∧
    ∀ (links : Links CString) (p : Option Nat) (as : List (Nat × CString)), Chained links p as none →
      (Sorts linkedAlphaSortRListNames rlistItemLess links p as ↔ as.length ≤ 2 ^ 31) :=
  ⟨sorts_less_iff h, fun _ _ _ h => ⟨sorts_less_iff h, sorts_less_iff h, sorts_less_iff h, sorts_less_iff h⟩,
    fun _ _ _ h => sorts_less_iff h⟩

theorem sort_names : Chained [some ⟨['b'], some 1⟩, some ⟨['a'], none⟩] (some 0) [(0, ['b']), (1, ['a'])] none ∧
    Sorts linkedAlphaSortRListNames rlistItemLess [some ⟨['b'], some 1⟩, some ⟨['a'], none⟩] (some 0)
      [(0, ['b']), (1, ['a'])] :=
  have h : Chained [some ⟨['b'], some 1⟩, some ⟨['a'], none⟩] (some 0) [(0, ['b']), (1, ['a'])] none :=
    ⟨rfl, rfl, rfl, rfl, rfl⟩
  ⟨h, ((sort_iff rlistItemLess _ _ _ h).right.right _ _ _ h).mpr <| by decide⟩

-- The run that is twice as long as 2^30 has no length that fits.
theorem not_sort : ¬∀ {α : Type} (less : α → α → Bool) [IsStrictWeakOrder α (less · ·)] (links : Links α)
    (p : Option Nat) (as : List (Nat × α)), Chained links p as none → Sorts (sort less) less links p as := by
  intro h
  obtain ⟨links, p, as, hchain, hlen⟩ := @exists_chained CString [] (2 ^ 31 + 1)
  have hsorted := (sorts_less_iff hchain).mp <| h rlistItemLess links p as hchain
  omega

end CfEngine
