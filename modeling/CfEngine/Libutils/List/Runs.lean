import CfEngine.Libutils.List.Isolation

namespace CfEngine.Libutils

open Function (update)

variable {α : Type}

-- The list that the call may change.
def ListCall.list : ListCall α → Option Nat
  | new _ _                => none
  | copy _                 => none
  | prepend list _         => some list
  | append list _          => some list
  | remove list _          => some list
  | iteratorGet list       => some list
  | iteratorNext list      => some list
  | iteratorPrevious list  => some list
  | iteratorRemove list    => some list
  | iteratorPrepend list _ => some list
  | iteratorAppend list _  => some list

namespace ListHeap

variable {heap heap' heap'' : ListHeap α} {chain chain' : Nat → List Nat} {i : Nat} {list list' l : LinkedList α}
  {garbage : Nat → Option α} {as : List Nat} {payload : Option α}

-- The calls that leave the other lists as they are.
def Meets [DecidableEq α] (garbage : Nat → Option α) (heap : ListHeap α) : ListCall α → Prop
  | .remove i payload        => ∀ list x, heap.lists i = some list → payload = some x → heap.Removable garbage list x
  | .iteratorNext i          => ∀ list a, heap.iterator? i = some (list, a) → (heap.cells a).isSome
  | .iteratorPrevious i      => ∀ list a, heap.iterator? i = some (list, a) → (heap.cells a).isSome
  | .iteratorRemove i        => ∀ list a, heap.iterator? i = some (list, a) → ∃ cell, heap.cells a = some cell ∧
    (cell.next = none ∧ cell.previous = none ∨ heap.OwnNode list a)
  | .iteratorPrepend i _     => ∀ list a, heap.iterator? i = some (list, a) → heap.OwnNode list a
  | .iteratorAppend i _      => ∀ list a, heap.iterator? i = some (list, a) → heap.OwnNode list a
  | _                        => True

theorem Succeeds.step {result : Outcome (Int × ListHeap α)} (h : heap.Succeeds (some i) result) :
    ∃ heap', result.map Prod.snd = some heap' ∧ (∃ chain, Sound heap' chain) ∧ heap.Isolates (some i) heap' := by
  have ⟨_, heap', hr, h⟩ := h
  exact ⟨heap', hr ▸ rfl, h⟩

theorem step_isolates [DecidableEq α] {call : ListCall α} (h : Sound heap chain) (hm : heap.Meets garbage call) :
    ∃ heap', heap.step garbage call = some heap' ∧ (∃ chain, Sound heap' chain) ∧ heap.Isolates call.list heap' := by
  cases call
  case new compare copy               => exact ⟨_, rfl, listNew_isolates h compare copy⟩
  case copy origin                    => exact ⟨_, rfl, listCopy_isolates h⟩
  case prepend list payload           => exact (listPrepend_succeeds garbage payload h).step
  case append list payload            => exact (listAppend_succeeds garbage payload h).step
  case remove list payload            => exact (listRemove_succeeds garbage payload h hm).step
  case iteratorGet list               => exact ⟨_, rfl, listMutableIteratorGet_succeeds h⟩
  case iteratorNext list              => exact (moveIterator_succeeds h (fun hc hb => h.link_lt hc <| .inl hb) hm).step
  case iteratorPrevious list          => exact (moveIterator_succeeds h (fun hc hb => h.link_lt hc <| .inr hb) hm).step
  case iteratorRemove list            => exact (listMutableIteratorRemove_succeeds garbage h hm).step
  case iteratorPrepend list payload   => exact (listMutableIteratorPrepend_succeeds garbage payload h hm).step
  case iteratorAppend list payload    => exact (listMutableIteratorAppend_succeeds garbage payload h hm).step

-- A node that is not the list's own is one of another list, and stays as it is.
theorem Isolates.cells_eq {a : Nat} {cell : ListNode α} (hiso : heap.Isolates (some i) heap') (h : Sound heap chain)
    (hl : heap.lists i = some list) (hc : heap.cells a = some cell) (hown : ¬heap.OwnNode list a) :
    heap'.cells a = some cell := by
  have ⟨_, j, r, hj, hmem⟩ := h.owned hc
  have ⟨k, hki, hk⟩ : ∃ k ≠ i, heap.holds k = some r := by
    by_cases hji : j = i
    case neg => exact ⟨j, hji, hj⟩
    case pos =>
      have hr := Option.some.inj <| (hji ▸ hj).symm.trans <| holds_eq hl
      subst hr
      rw [← h.sharing.isShared_iff <| holds_eq hl]
      by_contra hs
      exact hown ⟨Bool.eq_false_iff.mpr hs, _, h.isChain hl, hmem⟩
  have ⟨m, hm, hr⟩ := lists_of_holds hk
  subst hr
  rw [(hiso.others k m (fun he => hki (Option.some.inj he).symm) hm).right _ (h.isChain hm) a hmem, hc]

theorem moveIterator_eq_none {target : ListNode α → Option Nat} {a : Nat} (hi : heap.iterator? i = some (list, a))
    (hc : heap.cells a = none) : heap.moveIterator target i = none := by
  simp [moveIterator, hi, hc]

theorem cells_setNext {cells cells' : Cells (Option α)} {a : Nat} {n : Option Nat}
    (h : cells.setNext a n = some cells') : ∃ cell, cells' a = some cell ∧ cell.next = n := by
  have ⟨c, hc, he⟩ := Option.map_eq_some_iff.mp h
  exact ⟨_, he ▸ Function.update_self .., rfl⟩

theorem cells_setPrevious {cells cells' : Cells (Option α)} {a : Nat} {p : Option Nat}
    (h : cells.setPrevious a p = some cells') : ∃ cell, cells' a = some cell ∧ cell.previous = p := by
  have ⟨c, hc, he⟩ := Option.map_eq_some_iff.mp h
  exact ⟨_, he ▸ Function.update_self .., rfl⟩

theorem cells_unlink {cells cells' : Cells (Option α)} {a : Nat} {cell : ListNode α}
    (h : unlink list cells a cell = some (l, cells')) : cells' a = none := by
  obtain ⟨_, next, previous⟩ := cell
  cases next <;> cases previous <;> simp only [unlink, Option.bind_eq_bind, Option.bind_eq_some_iff] at h
  case none.none =>
    obtain ⟨_, _, he⟩ := h
    cases he
    exact Function.update_self ..
  case some.some =>
    obtain ⟨_, _, _, _, _, _, he⟩ := h
    cases he
    exact Function.update_self ..
  all_goals
    obtain ⟨_, _, _, _, he⟩ := h
    cases he
    exact Function.update_self ..

theorem listMutableIteratorRemove_not_isolates {a : Nat} {r : Int} (h : Sound heap chain)
    (hi : heap.iterator? i = some (list, a))
    (hm : ¬∃ cell, heap.cells a = some cell ∧ (cell.next = none ∧ cell.previous = none ∨ heap.OwnNode list a))
    (hr : heap.listMutableIteratorRemove garbage i = some (r, heap')) : ¬heap.Isolates (some i) heap' := by
  intro hiso
  obtain ⟨hl, iterator, hit, ha⟩ := iterator?_eq_some hi
  obtain ⟨list', heap₁, chain₁, hdetach, hd⟩ := listDetach_spec garbage h hl
  have hcells := hd.cells a <| ha ▸ h.iterator hl hit
  simp only [listMutableIteratorRemove, hi, hdetach, hcells, Option.bind_eq_bind, Option.bind_some] at hr
  obtain ⟨cell, hc, hr⟩ := Option.bind_eq_some_iff.mp hr
  have hm := fun hcase => hm ⟨cell, hc, hcase⟩
  cases hnode : cell.next.or cell.previous
  case none      => exact hm <| .inl <| Option.or_eq_none_iff.mp hnode
  case some node =>
    simp only [hnode] at hr
    obtain ⟨⟨l, cells⟩, hunlink, hr⟩ := Option.bind_eq_some_iff.mp hr
    cases hr
    have hsame := hiso.cells_eq h hl hc <| hm ∘ .inr
    cases hsame.symm.trans <| cells_unlink hunlink

theorem listMutableIteratorPrepend_not_isolates {a : Nat} {r : Int} (h : Sound heap chain)
    (hi : heap.iterator? i = some (list, a)) (hm : ¬heap.OwnNode list a)
    (hr : heap.listMutableIteratorPrepend garbage i payload = some (r, heap')) : ¬heap.Isolates (some i) heap' := by
  intro hiso
  obtain ⟨hl, iterator, hit, ha⟩ := iterator?_eq_some hi
  obtain ⟨list', heap₁, chain₁, hdetach, hd⟩ := listDetach_spec garbage h hl
  have hcells := hd.cells a <| ha ▸ h.iterator hl hit
  simp only [listMutableIteratorPrepend, hi, hdetach, hcells, Option.bind_eq_bind, Option.bind_some] at hr
  obtain ⟨cell, hc, hr⟩ := Option.bind_eq_some_iff.mp hr
  have hsame := hiso.cells_eq h hl hc hm
  -- The node before the one of the iterator is new.
  obtain ⟨cell', hc', hp⟩ : ∃ cell', heap'.cells a = some cell' ∧ cell'.previous = some heap₁.next := by
    cases hp : cell.previous <;> simp only [hp] at hr
    case none          =>
      obtain ⟨cells, hset, hr⟩ := Option.bind_eq_some_iff.mp hr
      cases hr
      exact cells_setPrevious hset
    case some previous =>
      obtain ⟨_, _, hr⟩ := Option.bind_eq_some_iff.mp hr
      obtain ⟨cells, hset, hr⟩ := Option.bind_eq_some_iff.mp hr
      cases hr
      exact cells_setPrevious hset
  cases hsame.symm.trans hc'
  exact Nat.not_lt.mpr hd.next_le <| h.link_lt hc <| .inr hp

theorem listMutableIteratorAppend_not_isolates {a : Nat} {r : Int} (h : Sound heap chain)
    (hi : heap.iterator? i = some (list, a)) (hm : ¬heap.OwnNode list a)
    (hr : heap.listMutableIteratorAppend garbage i payload = some (r, heap')) : ¬heap.Isolates (some i) heap' := by
  intro hiso
  obtain ⟨hl, iterator, hit, ha⟩ := iterator?_eq_some hi
  obtain ⟨list', heap₁, chain₁, hdetach, hd⟩ := listDetach_spec garbage h hl
  have hcells := hd.cells a <| ha ▸ h.iterator hl hit
  simp only [listMutableIteratorAppend, hi, hdetach, hcells, Option.bind_eq_bind, Option.bind_some] at hr
  obtain ⟨cell, hc, hr⟩ := Option.bind_eq_some_iff.mp hr
  have hsame := hiso.cells_eq h hl hc hm
  -- The node after the one of the iterator is new.
  obtain ⟨cell', hc', hn⟩ : ∃ cell', heap'.cells a = some cell' ∧ cell'.next = some heap₁.next := by
    cases hn : cell.next <;> simp only [hn] at hr
    case none      =>
      obtain ⟨cells, hset, hr⟩ := Option.bind_eq_some_iff.mp hr
      cases hr
      exact cells_setNext hset
    case some next =>
      obtain ⟨_, _, hr⟩ := Option.bind_eq_some_iff.mp hr
      obtain ⟨cells, hset, hr⟩ := Option.bind_eq_some_iff.mp hr
      cases hr
      exact cells_setNext hset
  cases hsame.symm.trans hc'
  exact Nat.not_lt.mpr hd.next_le <| h.link_lt hc <| .inl hn

theorem listRemove_eq_none [DecidableEq α] {x : α} (h : Sound heap chain) (hl : heap.lists i = some list)
    (hm : ¬heap.Removable garbage list x) : heap.listRemove garbage i (some x) = none := by
  have hchain := h.isChain hl
  have ⟨hfound, hagain⟩ : found list x (payloads heap.cells (chain list.ref_count)) = true ∧
      foundAgain list x (detachedPayloads garbage heap list (chain list.ref_count)) = false := by
    rw [← Bool.not_eq_true, ← Classical.not_imp]
    intro hall
    exact hm fun as has => has.unique hchain ▸ hall
  have hfind := listFindNode_eq list x hchain.linked <| h.length_lt hl
  have ⟨list', heap₁, chain₁, hdetach, hd⟩ := listDetach_spec garbage h hl
  have hchain₁ := hd.sound.isChain hd.lists
  rw [← hd.payloads, ← foundAgain_congr hd.compare] at hagain
  have hagain := (listFindAgain_eq hchain₁.linked <| hd.sound.length_lt hd.lists).right hagain
  rw [← hchain₁.list] at hagain
  rw [← hchain.list, hfound] at hfind
  simp only [listRemove, hl, hfind, hdetach, hagain, Option.bind_eq_bind, Option.bind_some]
  rfl

theorem step_not_isolates [DecidableEq α] {call : ListCall α} (h : Sound heap chain) (hm : ¬heap.Meets garbage call)
    (hr : heap.step garbage call = some heap') : ¬heap.Isolates call.list heap' := by
  cases call
  case remove i payload            =>
    rw [Meets] at hm
    push Not at hm
    have ⟨list, x, hl, hx, hm⟩ := hm
    rw [step, hx, listRemove_eq_none h hl hm] at hr
    cases hr
  case iteratorNext i              =>
    rw [Meets] at hm
    push Not at hm
    have ⟨list, a, hi, hc⟩ := hm
    rw [step, listMutableIteratorNext, moveIterator_eq_none hi <| Option.not_isSome_iff_eq_none.mp hc] at hr
    cases hr
  case iteratorPrevious i          =>
    rw [Meets] at hm
    push Not at hm
    have ⟨list, a, hi, hc⟩ := hm
    rw [step, listMutableIteratorPrevious, moveIterator_eq_none hi <| Option.not_isSome_iff_eq_none.mp hc] at hr
    cases hr
  case iteratorRemove i            =>
    have ⟨list, hm⟩ := not_forall.mp hm
    have ⟨a, hm⟩ := not_forall.mp hm
    have ⟨hi, hm⟩ := Classical.not_imp.mp hm
    have ⟨_, hcall, he⟩ := Option.map_eq_some_iff.mp hr
    subst he
    exact listMutableIteratorRemove_not_isolates h hi hm hcall
  case iteratorPrepend i payload   =>
    have ⟨list, hm⟩ := not_forall.mp hm
    have ⟨a, hm⟩ := not_forall.mp hm
    have ⟨hi, hm⟩ := Classical.not_imp.mp hm
    have ⟨_, hcall, he⟩ := Option.map_eq_some_iff.mp hr
    subst he
    exact listMutableIteratorPrepend_not_isolates h hi hm hcall
  case iteratorAppend i payload    =>
    have ⟨list, hm⟩ := not_forall.mp hm
    have ⟨a, hm⟩ := not_forall.mp hm
    have ⟨hi, hm⟩ := Classical.not_imp.mp hm
    have ⟨_, hcall, he⟩ := Option.map_eq_some_iff.mp hr
    subst he
    exact listMutableIteratorAppend_not_isolates h hi hm hcall
  all_goals exact absurd trivial hm

def stepOutcome [DecidableEq α] (garbage : Nat → Option α) (heap : Outcome (ListHeap α)) (call : ListCall α) :
    Outcome (ListHeap α) :=
  heap.bind fun heap => heap.step garbage call

def OutcomeIsolates [DecidableEq α] (garbage : Nat → Option α) (heap : Outcome (ListHeap α)) (call : ListCall α) :
    Prop :=
  ∃ heap₁ heap₂, heap = some heap₁ ∧ heap₁.step garbage call = some heap₂ ∧ heap₁.Isolates call.list heap₂

def OutcomeMeets [DecidableEq α] (garbage : Nat → Option α) (heap : Outcome (ListHeap α)) (call : ListCall α) : Prop :=
  ∀ heap', heap = some heap' → heap'.Meets garbage call

-- The calls have left the lists that they are not about and their nodes as they are, and all lists are well formed.
structure IsolatesAll (heap : ListHeap α) (calls : List (ListCall α)) (heap' : ListHeap α) : Prop where
  others : ∀ j list, (∀ call ∈ calls, call.list ≠ some j) → heap.lists j = some list → heap'.lists j = some list ∧
    ∀ as, list.IsChain heap.cells as → ∀ a ∈ as, heap'.cells a = heap.cells a
  chains : ∀ j list, heap'.lists j = some list → ∃ as, list.IsChain heap'.cells as

-- This is so for all calls that follow each other in the run.
def Isolated [DecidableEq α] (garbage : Nat → Option α) (calls : List (ListCall α)) : Prop :=
  ∀ before later, before ++ later <+: calls → ∃ heap heap',
    before.foldl (stepOutcome garbage) (some empty) = some heap ∧
    later.foldl (stepOutcome garbage) (some heap) = some heap' ∧ heap.IsolatesAll later heap'

theorem sound_empty : Sound (empty : ListHeap α) (fun _ => []) where
  lt_next  := nofun
  iterator := nofun
  sharing  := ⟨nofun, nofun⟩
  isChain  := nofun
  disjoint := nofun
  owned    := nofun

theorem isolatesAll_of_everyStep [DecidableEq α] {calls : List (ListCall α)}
    (hchains : ∀ j list, heap.lists j = some list → ∃ as, list.IsChain heap.cells as)
    (h : Run.EveryStep (OutcomeIsolates garbage) (stepOutcome garbage) (some heap) calls) :
    ∃ heap', calls.foldl (stepOutcome garbage) (some heap) = some heap' ∧ heap.IsolatesAll calls heap' := by
  induction calls generalizing heap
  case nil             => exact ⟨heap, rfl, fun _ _ _ hj => ⟨hj, fun _ _ _ _ => rfl⟩, hchains⟩
  case cons call calls ih =>
    have ⟨⟨_, heap₁, he, hstep, hiso⟩, h⟩ := h
    cases he
    have hstep : stepOutcome garbage (some heap) call = some heap₁ := hstep
    rw [hstep] at h
    have ⟨heap', hfold, hall⟩ := ih hiso.chains h
    refine ⟨heap', by rw [List.foldl_cons, hstep, hfold], fun j list hnot hj => ?_, hall.chains⟩
    have ⟨hj₁, hcells₁⟩ := hiso.others j list (hnot call List.mem_cons_self) hj
    have ⟨hj', hcells'⟩ := hall.others j list (fun c hc => hnot c <| List.mem_cons_of_mem _ hc) hj₁
    refine ⟨hj', fun as has a ha => ?_⟩
    rw [hcells' as (has.congr <| hcells₁ as has) a ha, hcells₁ as has a ha]

theorem isolated_iff_everyStep [DecidableEq α] {calls : List (ListCall α)} :
    Isolated garbage calls ↔
      Run.EveryStep (OutcomeIsolates garbage) (stepOutcome garbage) (some empty) calls := by
  constructor
  case mp  =>
    intro h
    rw [Run.everyStep_iff_forall_prefix]
    intro before call hp
    have ⟨heap, heap', hbefore, hstep, hall⟩ := h before [call] hp
    refine ⟨heap, heap', hbefore, hstep, fun j list hne hj => ?_, hall.chains⟩
    exact hall.others j list (fun c hc => List.mem_singleton.mp hc ▸ hne) hj
  case mpr =>
    intro h before later ⟨rest, hp⟩
    have ⟨h, _⟩ := Run.EveryStep.append.mp <| hp.symm ▸ h
    have ⟨hbefore, hlater⟩ := Run.EveryStep.append.mp h
    have ⟨heap, hfold, hall⟩ := isolatesAll_of_everyStep (fun _ _ hj => nomatch (hj : none = some _)) hbefore
    rw [hfold] at hlater
    have ⟨heap', hfold', hall'⟩ := isolatesAll_of_everyStep hall.chains hlater
    exact ⟨heap, heap', hfold, hfold', hall'⟩

-- The lists of a run are isolated if and only if its calls leave the nodes of the other lists as they are.
theorem isolated_iff [DecidableEq α] (garbage : Nat → Option α) (calls : List (ListCall α)) :
    Isolated garbage calls ↔ Run.EveryStep (OutcomeMeets garbage) (stepOutcome garbage) (some empty) calls := by
  rw [isolated_iff_everyStep]
  apply Run.everyStep_iff_everyStep (P := fun heap => ∃ heap' chain, heap = some heap' ∧ Sound heap' chain)
  case h₀ => exact ⟨empty, _, rfl, sound_empty⟩
  case hs =>
    intro _ call ⟨heap, chain, he, h⟩ ⟨_, heap', he', hr, hiso⟩
    subst he
    cases he'
    by_cases hm : heap.Meets garbage call
    case pos =>
      have ⟨_, hr', ⟨chain', h'⟩, _⟩ := step_isolates h hm
      cases hr.symm.trans hr'
      exact ⟨heap', chain', hr, h'⟩
    case neg => exact absurd hiso <| step_not_isolates h hm hr
  case hg =>
    intro _ call ⟨heap, chain, he, h⟩
    subst he
    constructor
    case mp  =>
      intro ⟨_, heap', he', hr, hiso⟩ heap₁ he₁
      cases he'
      cases he₁
      by_contra hm
      exact step_not_isolates h hm hr hiso
    case mpr =>
      intro hm
      have ⟨heap', hr, _, hiso⟩ := step_isolates h <| hm heap rfl
      exact ⟨heap, heap', rfl, hr, hiso⟩

-- An element is added with an iterator that is from before the copy.
theorem not_isolated :
    ¬Isolated (fun _ => none) [.new none (some fun _ x => x), .append 0 (some 7), .iteratorGet 0, .copy 0,
      .iteratorAppend 0 (some 8)] := by
  intro h
  have ⟨heap, heap', hbefore, hlater, hall⟩ := h [.new none (some fun _ x => x), .append 0 (some 7), .iteratorGet 0,
    .copy 0] [.iteratorAppend 0 (some 8)] List.prefix_rfl
  rw [← hbefore, ← List.foldl_append] at hlater
  have hlist : heap.lists 3 = some ⟨1, some 2, some 2, some 2, none, some fun _ x => x, 1, none⟩ :=
    (congrArg (fun s => s.bind fun m => ListHeap.lists m 3) hbefore).symm
  have hnode : heap.cells 2 = some ⟨some 7, none, none⟩ :=
    (congrArg (fun s => s.bind fun m => ListHeap.cells m 2) hbefore).symm
  have hnode' : heap'.cells 2 = some ⟨some 7, some 6, none⟩ :=
    (congrArg (fun s => s.bind fun m => ListHeap.cells m 2) hlater).symm
  have ⟨_, hcells⟩ := hall.others 3 _ (by decide) hlist
  have hcell := hcells [2] ⟨rfl, rfl, rfl, rfl, ⟨⟨some 7, hnode⟩, trivial⟩, List.nodup_singleton 2⟩ 2 List.mem_cons_self
  cases hnode.symm.trans <| hcell.symm.trans hnode'

end ListHeap
end CfEngine.Libutils
