import Mathlib.Data.List.Range
import CfEngine.Libutils.List

namespace CfEngine.Libutils

open Function (update)

variable {α : Type}

-- The nodes of the list are those at the addresses.
structure LinkedList.IsChain (l : LinkedList α) (cells : Cells (Option α)) (as : List Nat) : Prop where
  list   : l.list = as.head?
  first  : l.first = as.head?
  last   : l.last = as.getLast?
  count  : l.node_count = as.length
  linked : cells.Linked none as none
  nodup  : as.Nodup

theorem LinkedList.IsChain.unique {list : LinkedList α} {cells : Cells (Option α)} {as bs : List Nat}
    (h : list.IsChain cells as) (h' : list.IsChain cells bs) : as = bs :=
  h.linked.unique h'.linked <| h.list.symm.trans h'.list

theorem LinkedList.IsChain.congr {list : LinkedList α} {cells cells' : Cells (Option α)} {as : List Nat}
    (h : list.IsChain cells as) (hc : ∀ a ∈ as, cells' a = cells a) : list.IsChain cells' as :=
  { h with linked := h.linked.congr hc }

-- The elements at the addresses.
def payloads (cells : Cells (Option α)) (as : List Nat) : List (Option α) :=
  as.map fun a => ((cells a).map Cell.payload).join

theorem payloads_congr {cells cells' : Cells (Option α)} {as : List Nat} (h : ∀ a ∈ as, cells' a = cells a) :
    payloads cells' as = payloads cells as :=
  List.map_congr_left fun a ha => by rw [h a ha]

-- The nodes that have been copied, to the addresses from `next` on.
theorem copyNodes_spec (copied : Nat → Option α → Option α) {cells : Cells (Option α)} {prev : Option Nat}
    {as : List Nat} (news : List Nat) {fuel next : Nat} (h : cells.Linked prev as none) (hnews : cells.Linked none news none)
    (hnodup : news.Nodup) (hlt : ∀ a ∈ as, a < next) (hltnews : ∀ a ∈ news, a < next) (hd : news.Disjoint as)
    (hfuel : as.length < fuel) :
    ∃ cells', copyNodes copied fuel cells as.head? news.getLast? next =
        some (cells', (news ++ List.range' next as.length).getLast?, next + as.length) ∧
      cells'.Linked none (news ++ List.range' next as.length) none ∧
      (∀ a, a ∉ news → a < next ∨ next + as.length ≤ a → cells' a = cells a) ∧
      payloads cells' (news ++ List.range' next as.length) =
        payloads cells news ++ List.zipWith copied (List.range' next as.length) (payloads cells as) := by
  induction as generalizing cells prev news fuel next
  case nil          =>
    have ⟨fuel, hf⟩ := Nat.exists_eq_add_of_lt hfuel
    subst hf
    refine ⟨cells, ?_, ?_, fun _ _ _ => rfl, ?_⟩
    · simp [copyNodes]
    · simpa using hnews
    · simp [payloads]
  case cons a as ih =>
    have ⟨⟨payload, hc⟩, hrest⟩ := h
    rw [Option.or_none] at hc
    have hfresh : next ∉ news := fun hm => Nat.lt_irrefl _ <| hltnews next hm
    have ⟨cells₂, hset, hlinked, hframe, hpayload, hpayloads⟩ := hnews.snoc hnodup hfresh (copied next payload)
    have hltas : ∀ b ∈ as, b < next := fun b hb => hlt b <| List.mem_cons_of_mem _ hb
    have hframe' : ∀ b ∈ a :: as, cells₂ b = cells b := fun b hb =>
      hframe b (fun hm => hd hm hb) <| Nat.ne_of_lt <| hlt b hb
    have hltnews' : ∀ b ∈ news ++ [next], b < next + 1 := by
      intro b hb
      rcases List.mem_append.mp hb with hb | hb
      · exact Nat.lt_succ_of_lt <| hltnews b hb
      · exact List.mem_singleton.mp hb ▸ Nat.lt_succ_self _
    have hd' : (news ++ [next]).Disjoint as := by
      intro b hb hbs
      rcases List.mem_append.mp hb with hb | hb
      · exact hd hb <| List.mem_cons_of_mem _ hbs
      · exact Nat.lt_irrefl _ <| List.mem_singleton.mp hb ▸ hltas b hbs
    have hnodup' : (news ++ [next]).Nodup := by
      rw [List.nodup_append]
      exact ⟨hnodup, List.pairwise_singleton .., fun b hb c hc he => hfresh <| List.mem_singleton.mp hc ▸ he ▸ hb⟩
    cases fuel
    case zero      => exact absurd hfuel <| Nat.not_lt_zero _
    case succ fuel =>
      have ⟨cells', hcopy, hlinked', hother, hp⟩ := ih (news ++ [next]) (hrest.congr fun b hb => hframe' b <| List.mem_cons_of_mem _ hb)
        hlinked hnodup' (fun b hb => Nat.lt_succ_of_lt <| hltas b hb) hltnews' hd' (Nat.lt_of_succ_lt_succ hfuel)
      have hrange : news ++ List.range' next (a :: as).length = news ++ [next] ++ List.range' (next + 1) as.length := by
        rw [List.append_assoc]
        rfl
      have hlen : next + (a :: as).length = next + 1 + as.length := by
        rw [List.length_cons]
        omega
      refine ⟨cells', ?_, hrange ▸ hlinked', fun b hb hbn => ?_, ?_⟩
      · rw [hrange, hlen, List.head?_cons, copyNodes, hc]
        rw [List.getLast?_concat] at hcopy
        simp only [Option.bind_eq_bind, Option.bind_some, hset]
        exact hcopy
      · have hne : b ≠ next := by
          rw [List.length_cons] at hbn
          omega
        have hnot : b ∉ news ++ [next] := fun hm => (List.mem_append.mp hm).elim hb (hne ∘ List.mem_singleton.mp)
        exact (hother b hnot (by omega)).trans <| hframe b hb hne
      · have hold : payloads cells₂ (news ++ [next]) = payloads cells news ++ [copied next payload] := by
          rw [payloads, List.map_append, List.map_singleton, hpayload]
          congr 1
          exact List.map_congr_left fun b hb => by rw [hpayloads b <| ne_of_mem_of_not_mem hb hfresh]
        have hrest : payloads cells₂ as = payloads cells as :=
          payloads_congr fun b hb => hframe' b <| List.mem_cons_of_mem _ hb
        have hfirst : payloads cells (a :: as) = payload :: payloads cells as := by
          rw [payloads, List.map_cons, hc]
          rfl
        rw [hrange, hp, hold, hrest, hfirst, List.append_assoc]
        rfl

namespace ListHeap

def holds (heap : ListHeap α) (i : Nat) : Option Nat :=
  (heap.lists i).map LinkedList.ref_count

-- Lists with the same count have the same nodes, and other lists have others. There are no more nodes.
structure Sound (heap : ListHeap α) (chain : Nat → List Nat) : Prop where
  lt_next  : ∀ {i list}, heap.lists i = some list → i < heap.next ∧ list.ref_count < heap.next
  iterator : ∀ {i list iterator}, heap.lists i = some list → list.iterator = some iterator →
    iterator.current < heap.next
  sharing  : Sharing heap.holds heap.refCounts
  isChain  : ∀ {i list}, heap.lists i = some list → list.IsChain heap.cells (chain list.ref_count)
  disjoint : ∀ {i j r r'}, heap.holds i = some r → heap.holds j = some r' → r ≠ r' → (chain r).Disjoint (chain r')
  owned    : ∀ {a c}, heap.cells a = some c → a < heap.next ∧ ∃ i r, heap.holds i = some r ∧ a ∈ chain r

-- No other list holds what the list holds.
def Alone (heap : ListHeap α) (i r : Nat) : Prop :=
  ∀ j, heap.holds j = some r → j = i

section

variable {heap heap' : ListHeap α} {chain : Nat → List Nat} {i j r : Nat} {list list' l : LinkedList α}
  {cells : Cells (Option α)} {as : List Nat}

theorem holds_eq (hl : heap.lists i = some list) : heap.holds i = some list.ref_count := by
  rw [holds, hl]
  rfl

theorem lists_of_holds (h : heap.holds i = some r) : ∃ list, heap.lists i = some list ∧ list.ref_count = r :=
  Option.map_eq_some_iff.mp h

theorem holds_update {lists : Nat → Option (LinkedList α)} (hl : heap'.lists = update lists i (some list)) :
    heap'.holds = update (fun j => (lists j).map LinkedList.ref_count) i (some list.ref_count) := by
  funext j
  by_cases hj : j = i
  case pos => simp [holds, hl, hj]
  case neg => simp [holds, hl, hj]

theorem Sound.lt_of_mem (h : Sound heap chain) (hl : heap.lists i = some list) {a : Nat}
    (ha : a ∈ chain list.ref_count) : a < heap.next := by
  have ⟨c, hc⟩ := (h.isChain hl).linked.isSome_of_mem ha
  exact (h.owned hc).left

theorem Sound.length_lt (h : Sound heap chain) (hl : heap.lists i = some list) :
    (chain list.ref_count).length < heap.next + 1 := by
  have hsub := ((h.isChain hl).nodup.subperm fun a ha => List.mem_range.mpr <| h.lt_of_mem hl ha).length_le
  rw [List.length_range] at hsub
  exact Nat.lt_succ_of_le hsub

theorem Sound.holds_ne (h : Sound heap chain) (hr : heap.next ≤ r) : heap.holds j ≠ some r := by
  intro hj
  have ⟨l, hl, hr'⟩ := lists_of_holds hj
  have := (h.lt_next hl).right
  omega

theorem Sound.lists_eq_none (h : Sound heap chain) (hi : heap.next ≤ i) : heap.lists i = none := by
  cases hl : heap.lists i
  case none      => rfl
  case some list =>
    have := (h.lt_next hl).left
    omega

theorem Sound.cells_eq_none (h : Sound heap chain) {a : Nat} (ha : heap.next ≤ a) : heap.cells a = none := by
  cases hc : heap.cells a
  case none   => rfl
  case some c =>
    have := (h.owned hc).left
    omega

theorem Sound.alone (h : Sound heap chain) (hl : heap.lists i = some list)
    (hs : ¬(heap.refCounts list.ref_count).isShared = true) : heap.Alone i list.ref_count := by
  intro j hj
  by_contra hne
  exact hs <| (h.sharing.isShared_iff <| holds_eq hl).mpr ⟨j, hne, hj⟩

-- What a change to the nodes of a list that are its own leaves as it is.
theorem Sound.modify (h : Sound heap chain) (hl : heap.lists i = some list) (ha : heap.Alone i list.ref_count)
    (hlists : heap'.lists = update heap.lists i (some list')) (hr : list'.ref_count = list.ref_count)
    (hrefs : heap'.refCounts = heap.refCounts) (hn : heap.next ≤ heap'.next)
    (hit : ∀ iterator, list'.iterator = some iterator → iterator.current < heap'.next)
    (hkept : ∀ a < heap.next, a ∉ chain list.ref_count → heap'.cells a = heap.cells a)
    (hnew : ∀ a c, heap'.cells a = some c → heap.next ≤ a ∨ a ∈ chain list.ref_count → a ∈ as)
    (has : ∀ a ∈ as, a ∈ chain list.ref_count ∨ heap.next ≤ a ∧ a < heap'.next) (hchain : list'.IsChain heap'.cells as) :
    Sound heap' (update chain list.ref_count as) := by
  have hh : heap'.holds = heap.holds := by
    rw [holds_update hlists, hr, ← holds_eq hl]
    exact Function.update_eq_self ..
  have hlists (j) : heap'.lists j = if j = i then some list' else heap.lists j := by
    rw [hlists, Function.update_apply]
  have hother {j r} (hj : heap.holds j = some r) (hne : r ≠ list.ref_count) {a : Nat} (ha : a ∈ chain r) :
      a < heap.next ∧ a ∉ chain list.ref_count := by
    have ⟨l, hlj, he⟩ := lists_of_holds hj
    subst he
    exact ⟨h.lt_of_mem hlj ha, h.disjoint hj (holds_eq hl) hne ha⟩
  have hmem {a : Nat} (ha : a ∈ as) : a < heap'.next := by
    cases has a ha
    case inl hc => exact (h.lt_of_mem hl hc).trans_le hn
    case inr hc => exact hc.right
  constructor
  case lt_next =>
    intro j l hj
    rw [hlists] at hj
    split at hj
    case isTrue hji =>
      cases hj
      have ⟨hi, hlr⟩ := h.lt_next hl
      exact ⟨hji ▸ hi.trans_le hn, hr ▸ hlr.trans_le hn⟩
    case isFalse    =>
      have ⟨hj, hlr⟩ := h.lt_next hj
      exact ⟨hj.trans_le hn, hlr.trans_le hn⟩
  case iterator =>
    intro j l iterator hj hi
    rw [hlists] at hj
    split at hj
    case isTrue  => cases hj; exact hit iterator hi
    case isFalse => exact (h.iterator hj hi).trans_le hn
  case sharing => exact hh ▸ hrefs ▸ h.sharing
  case isChain =>
    intro j l hj
    rw [hlists] at hj
    split at hj
    case isTrue      =>
      cases hj
      rw [hr, Function.update_self]
      exact hchain
    case isFalse hji =>
      have hne : l.ref_count ≠ list.ref_count := fun he => hji <| ha j <| he ▸ holds_eq hj
      rw [Function.update_of_ne hne]
      apply (h.isChain hj).congr
      intro a ha
      have ⟨hlt, hnot⟩ := hother (holds_eq hj) hne ha
      exact hkept a hlt hnot
  case disjoint =>
    intro j k r r' hj hk hne
    rw [hh] at hj hk
    have hd {j r} (hj : heap.holds j = some r) (hne : r ≠ list.ref_count) : as.Disjoint (chain r) := by
      intro a hmem ha
      have ⟨hlt, hnot⟩ := hother hj hne ha
      cases has a hmem
      case inl hc => exact hnot hc
      case inr hc => omega
    by_cases hjr : r = list.ref_count
    case pos =>
      have hkr : r' ≠ list.ref_count := fun he => hne <| hjr.trans he.symm
      rw [hjr, Function.update_self, Function.update_of_ne hkr]
      exact hd hk hkr
    case neg =>
      rw [Function.update_of_ne hjr]
      by_cases hkr : r' = list.ref_count
      case pos =>
        rw [hkr, Function.update_self]
        exact (hd hj hjr).symm
      case neg =>
        rw [Function.update_of_ne hkr]
        exact h.disjoint hj hk hne
  case owned =>
    intro a c hc
    by_cases ha : heap.next ≤ a ∨ a ∈ chain list.ref_count
    case pos =>
      have ha := hnew a c hc ha
      refine ⟨hmem ha, i, list.ref_count, hh ▸ holds_eq hl, ?_⟩
      rw [Function.update_self]
      exact ha
    case neg =>
      have ⟨hlt, hnot⟩ := not_or.mp ha
      have hlt := Nat.not_le.mp hlt
      rw [hkept a hlt hnot] at hc
      have ⟨_, j, r, hj, hmem⟩ := h.owned hc
      refine ⟨hlt.trans_le hn, j, r, hh ▸ hj, ?_⟩
      have hne : r ≠ list.ref_count := fun he => hnot <| he ▸ hmem
      rw [Function.update_of_ne hne]
      exact hmem

-- A list that has been given new nodes in the place of those that it has shared.
theorem Sound.relocate {r' : Nat} {news : List Nat} (h : Sound heap chain) (hl : heap.lists i = some list)
    (hs : (heap.refCounts list.ref_count).isShared = true) (hle : heap.next ≤ r')
    (hnews : ∀ a ∈ news, heap.next ≤ a ∧ a < r') (hlists : heap'.lists = update heap.lists i (some list'))
    (hr : list'.ref_count = r') (hn : heap'.next = r' + 1) (hit : list'.iterator = list.iterator)
    (hsharing : Sharing (update heap.holds i (some r')) heap'.refCounts)
    (hkept : ∀ a < heap.next, heap'.cells a = heap.cells a)
    (hfresh : ∀ a c, heap'.cells a = some c → heap.next ≤ a → a ∈ news) (hchain : list'.IsChain heap'.cells news) :
    Sound heap' (update chain r' news) ∧ heap'.Alone i r' := by
  have hholds : heap'.holds = update heap.holds i (some r') := hr ▸ holds_update hlists
  have hlists (j) : heap'.lists j = if j = i then some list' else heap.lists j := by
    rw [hlists, Function.update_apply]
  have hcases {j r} (hj : heap'.holds j = some r) : j = i ∧ r = r' ∨ j ≠ i ∧ heap.holds j = some r := by
    rw [hholds] at hj
    exact Sharing.update_eq_some.mp hj
  have hne {j r} (hj : heap.holds j = some r) : r ≠ r' := fun he => h.holds_ne hle <| he ▸ hj
  have hold {j r} (hj : heap.holds j = some r) : update chain r' news r = chain r :=
    Function.update_of_ne (hne hj) _ _
  have hlt {j r} (hj : heap.holds j = some r) {a} (ha : a ∈ chain r) : a < heap.next := by
    have ⟨l, hlj, hr⟩ := lists_of_holds hj
    subst hr
    exact h.lt_of_mem hlj ha
  constructor
  case right =>
    intro j hj
    cases hcases hj
    case inl hj => exact hj.left
    case inr hj => exact absurd rfl <| hne hj.right
  constructor
  case lt_next =>
    intro j l hj
    rw [hlists] at hj
    split at hj
    case isTrue hji =>
      cases hj
      have hi := (h.lt_next hl).left
      omega
    case isFalse    =>
      have hj := h.lt_next hj
      omega
  case iterator =>
    intro j l iterator hj hi
    rw [hlists] at hj
    split at hj
    case isTrue  =>
      cases hj
      have hi := h.iterator hl <| hit ▸ hi
      omega
    case isFalse =>
      have hi := h.iterator hj hi
      omega
  case sharing => exact hholds ▸ hsharing
  case isChain =>
    intro j l hj
    rw [hlists] at hj
    split at hj
    case isTrue  =>
      cases hj
      rw [hr, Function.update_self]
      exact hchain
    case isFalse =>
      rw [hold <| holds_eq hj]
      exact (h.isChain hj).congr fun a ha => hkept a <| h.lt_of_mem hj ha
  case disjoint =>
    intro j k r s hj hk hne
    have hd {j r} (hj : heap.holds j = some r) : news.Disjoint (chain r) := fun a hn ha =>
      Nat.not_lt.mpr (hnews a hn).left <| hlt hj ha
    cases hcases hj <;> cases hcases hk
    case inl.inl hj hk => exact absurd (hj.right.trans hk.right.symm) hne
    case inl.inr hj hk =>
      rw [hj.right, Function.update_self, hold hk.right]
      exact hd hk.right
    case inr.inl hj hk =>
      rw [hk.right, Function.update_self, hold hj.right]
      exact (hd hj.right).symm
    case inr.inr hj hk =>
      rw [hold hj.right, hold hk.right]
      exact h.disjoint hj.right hk.right hne
  case owned =>
    intro a c hc
    by_cases ha : a < heap.next
    case neg =>
      have hmem := hfresh a c hc (Nat.not_lt.mp ha)
      have hlt := (hnews a hmem).right
      refine ⟨by omega, i, r', by rw [hholds, Function.update_self], ?_⟩
      rw [Function.update_self]
      exact hmem
    case pos =>
      rw [hkept a ha] at hc
      have ⟨_, j, r, hj, hmem⟩ := h.owned hc
      -- The nodes that the list leaves are those of another one.
      have ⟨k, hki, hk⟩ : ∃ k ≠ i, heap.holds k = some r := by
        by_cases hji : j = i
        case neg => exact ⟨j, hji, hj⟩
        case pos =>
          have hr := Option.some.inj <| (hji ▸ hj).symm.trans <| holds_eq hl
          subst hr
          exact (h.sharing.isShared_iff <| holds_eq hl).mp hs
      refine ⟨by omega, k, r, ?_, hold hk ▸ hmem⟩
      rw [hholds, Function.update_of_ne hki]
      exact hk

-- The elements of a list once its nodes are its own.
def detachedPayloads (garbage : Nat → Option α) (heap : ListHeap α) (list : LinkedList α) (as : List Nat) :
    List (Option α) :=
  if (heap.refCounts list.ref_count).isShared then
    List.zipWith (list.copied garbage) (List.range' heap.next as.length) (payloads heap.cells as)
  else
    payloads heap.cells as

-- What the list and the memory are once the nodes are its own. They are new ones if they have been shared.
structure Detaches (garbage : Nat → Option α) (heap : ListHeap α) (chain : Nat → List Nat) (i : Nat)
    (list : LinkedList α) (heap' : ListHeap α) (chain' : Nat → List Nat) (list' : LinkedList α) : Prop where
  sound    : Sound heap' chain'
  lists    : heap'.lists i = some list'
  alone    : heap'.Alone i list'.ref_count
  others   : ∀ j ≠ i, heap'.lists j = heap.lists j
  cells    : ∀ a < heap.next, heap'.cells a = heap.cells a
  next_le  : heap.next ≤ heap'.next
  iterator : list'.iterator = list.iterator
  compare  : list'.compare = list.compare
  payloads : payloads heap'.cells (chain' list'.ref_count) =
    detachedPayloads garbage heap list (chain list.ref_count)
  own      : (heap.refCounts list.ref_count).isShared = false →
    heap' = heap ∧ chain' list'.ref_count = chain list.ref_count
  new      : (heap.refCounts list.ref_count).isShared = true → ∀ a ∈ chain' list'.ref_count, heap.next ≤ a

theorem listDetach_spec (garbage : Nat → Option α) (h : Sound heap chain) (hl : heap.lists i = some list) :
    ∃ list' heap' chain', heap.listDetach garbage i list = some (list', heap') ∧
      Detaches garbage heap chain i list heap' chain' list' := by
  rw [listDetach]
  cases hs : (heap.refCounts list.ref_count).isShared
  case false =>
    rw [if_pos Bool.false_ne_true]
    refine ⟨list, heap, chain, rfl, h, hl, h.alone hl (hs ▸ Bool.false_ne_true), fun _ _ => rfl, fun _ _ => rfl,
      Nat.le_refl _, rfl, rfl, ?_, fun _ => ⟨rfl, rfl⟩, fun he => nomatch hs.symm.trans he⟩
    rw [detachedPayloads, if_neg (hs ▸ Bool.false_ne_true)]
  case true  =>
    rw [if_neg (not_not_intro rfl)]
    have hchain := h.isChain hl
    generalize has : chain list.ref_count = as at hchain
    have hlt : ∀ a ∈ as, a < heap.next := fun a ha => h.lt_of_mem hl <| has ▸ ha
    have hlen : as.length < heap.next + 1 := has ▸ h.length_lt hl
    have ⟨cells, hcopy, hlinked, hkept, hpayloads⟩ := copyNodes_spec (list.copied garbage) []
      hchain.linked trivial List.nodup_nil hlt nofun nofun hlen
    rw [List.nil_append] at hcopy hlinked hpayloads
    generalize hnews : List.range' heap.next as.length = news at hcopy hlinked hpayloads
    have hmem {a} : a ∈ news ↔ heap.next ≤ a ∧ a < heap.next + as.length := hnews ▸ List.mem_range'_1
    have hfirst : list.list.map (fun _ => heap.next) = news.head? := by
      rw [hchain.list, ← hnews]
      cases as <;> rfl
    have hnext {j r} (hj : heap.holds j = some r) : r < heap.next := by
      have ⟨l, hlj, hr⟩ := lists_of_holds hj
      exact hr ▸ (h.lt_next hlj).right
    have ⟨old, hd, hsharing⟩ := h.sharing.detach (holds_eq hl)
      (fun j => h.holds_ne (r := heap.next + as.length) <| Nat.le_add_right ..) hs
    have hcopy : copyNodes (list.copied garbage) (heap.next + 1) heap.cells list.list none heap.next =
        some (cells, news.getLast?, heap.next + as.length) := hchain.list ▸ hcopy
    rw [hcopy, hfirst]
    simp only [Option.bind_eq_bind, Option.bind_some, hd, Option.getD_some]
    generalize hr' : heap.next + as.length = r' at *
    have hr'le : heap.next ≤ r' := hr' ▸ Nat.le_add_right ..
    generalize hlist' : ({ list with
      list      := news.head?
      first     := news.head?
      last      := news.getLast?
      ref_count := r' } : LinkedList α) = list'
    have hlr : list'.ref_count = r' := hlist' ▸ rfl
    generalize hheap' : ({ heap with
      next      := r' + 1
      cells     := cells
      refCounts := update (update heap.refCounts list.ref_count old) r' (RefCount.new.attach i)
      lists     := update heap.lists i (some list') } : ListHeap α) = heap'
    have hlists : heap'.lists = update heap.lists i (some list') := hheap' ▸ rfl
    have hcells : heap'.cells = cells := hheap' ▸ rfl
    have hn : heap'.next = r' + 1 := hheap' ▸ rfl
    have hkept' : ∀ a < heap.next, heap'.cells a = heap.cells a := fun a ha => hcells ▸ hkept a nofun (.inl ha)
    have hchain' : list'.IsChain heap'.cells news := by
      refine ⟨hlist' ▸ rfl, hlist' ▸ rfl, hlist' ▸ rfl, ?_, hcells ▸ hlinked, hnews ▸ List.nodup_range'⟩
      rw [← hlist', hchain.count, ← hnews, List.length_range']
    have hfresh : ∀ a c, heap'.cells a = some c → heap.next ≤ a → a ∈ news := by
      intro a c hc ha
      by_contra hnot
      have hr : r' ≤ a := Nat.not_lt.mp fun hlt => hnot <| hmem.mpr ⟨ha, hlt⟩
      rw [hcells, hkept a nofun <| .inr hr, h.cells_eq_none ha] at hc
      cases hc
    have ⟨hsound, halone⟩ := h.relocate hl hs hr'le (fun a ha => hmem.mp ha) hlists hlr hn (hlist' ▸ rfl) (hheap' ▸ hsharing) hkept'
      hfresh hchain'
    refine ⟨list', heap', update chain r' news, hheap' ▸ rfl, hsound, by rw [hlists, Function.update_self], hlr ▸ halone,
      fun j hj => by rw [hlists, Function.update_of_ne hj], hkept', by omega, hlist' ▸ rfl, hlist' ▸ rfl, ?_,
      fun he => (nomatch hs.symm.trans he), ?_⟩
    all_goals rw [hlr, Function.update_self]
    case refine_1 =>
      rw [hcells, hpayloads, detachedPayloads, if_pos hs, has, hnews]
      rfl
    case refine_2 => exact fun _ a ha => (hmem.mp ha).left

end

end ListHeap
end CfEngine.Libutils
