import CfEngine.Library.Run
import CfEngine.Libutils.List.WellFormed

namespace CfEngine.Libutils

open Function (update)

variable {α : Type}

namespace ListHeap

-- The call about the list has left the other ones and their nodes as they are, and all of them are well formed.
structure Isolates (heap : ListHeap α) (i : Option Nat) (heap' : ListHeap α) : Prop where
  others : ∀ j list, i ≠ some j → heap.lists j = some list → heap'.lists j = some list ∧
    ∀ as, list.IsChain heap.cells as → ∀ a ∈ as, heap'.cells a = heap.cells a
  chains : ∀ j list, heap'.lists j = some list → ∃ as, list.IsChain heap'.cells as

-- A result of a call that is right.
def Succeeds (heap : ListHeap α) (i : Option Nat) (result : Outcome (Int × ListHeap α)) : Prop :=
  ∃ r heap', result = some (r, heap') ∧ (∃ chain, Sound heap' chain) ∧ heap.Isolates i heap'

variable {heap heap' heap'' : ListHeap α} {chain chain' : Nat → List Nat} {i j : Nat} {list list' l : LinkedList α}
  {garbage : Nat → Option α} {as : List Nat} {payload : Option α}

theorem Isolates.refl (h : Sound heap chain) (i : Option Nat) : heap.Isolates i heap where
  others := fun _ _ _ hj => ⟨hj, fun _ _ _ _ => rfl⟩
  chains := fun _ _ hj => ⟨_, h.isChain hj⟩

theorem succeeds_self (h : Sound heap chain) (i : Option Nat) (r : Int) : heap.Succeeds i (some (r, heap)) :=
  ⟨r, heap, rfl, ⟨chain, h⟩, .refl h i⟩

-- The nodes of the list are its own and may be changed.
theorem Detaches.finish (as : List Nat) (h : Sound heap chain) (hl : heap.lists i = some list)
    (hd : Detaches garbage heap chain i list heap' chain' list')
    (hlists : heap''.lists = update heap'.lists i (some l)) (hr : l.ref_count = list'.ref_count)
    (hrefs : heap''.refCounts = heap'.refCounts) (hn : heap'.next ≤ heap''.next)
    (hit : ∀ iterator, l.iterator = some iterator → iterator.current < heap''.next)
    (hkept : ∀ a < heap'.next, a ∉ chain' list'.ref_count → heap''.cells a = heap'.cells a)
    (hnew : ∀ a c, heap''.cells a = some c → heap'.next ≤ a ∨ a ∈ chain' list'.ref_count → a ∈ as)
    (has : ∀ a ∈ as, a ∈ chain' list'.ref_count ∨ heap'.next ≤ a ∧ a < heap''.next)
    (hchain : l.IsChain heap''.cells as) :
    (∃ chain, Sound heap'' chain) ∧ heap.Isolates (some i) heap'' := by
  have hsound := hd.sound.modify hd.lists hd.alone hlists hr hrefs hn hit hkept hnew has hchain
  refine ⟨⟨_, hsound⟩, fun j m hij hj => ?_, fun j m hj => ⟨_, hsound.isChain hj⟩⟩
  have hji : j ≠ i := fun he => hij <| he ▸ rfl
  have hj' : heap'.lists j = some m := (hd.others j hji).trans hj
  refine ⟨by rw [hlists, Function.update_of_ne hji, hj'], fun bs hbs a ha => ?_⟩
  have ha : a ∈ chain m.ref_count := hbs.unique (h.isChain hj) ▸ ha
  have hlt := h.lt_of_mem hj ha
  -- A node of another list is not one of those of this list.
  have hnot : a ∉ chain' list'.ref_count := by
    intro hmem
    cases hs : (heap.refCounts list.ref_count).isShared
    case true  => exact Nat.not_lt.mpr (hd.new hs a hmem) hlt
    case false =>
      have hne : m.ref_count ≠ list.ref_count := fun he =>
        hji <| h.alone hl (hs ▸ Bool.false_ne_true) j <| he ▸ holds_eq hj
      rw [(hd.own hs).right] at hmem
      exact h.disjoint (holds_eq hj) (holds_eq hl) hne ha hmem
  rw [hkept a (hlt.trans_le hd.next_le) hnot, hd.cells a hlt]

-- A new node has been put between the nodes of the list.
theorem Detaches.insert (pre post : List Nat) (h : Sound heap chain) (hl : heap.lists i = some list)
    (hd : Detaches garbage heap chain i list heap' chain' list') {cells : Cells (Option α)}
    (he : chain' list'.ref_count = pre ++ post) (hlinked : cells.Linked none (pre ++ heap'.next :: post) none)
    (hkept : ∀ b, b ∉ pre ++ post → b ≠ heap'.next → cells b = heap'.cells b) (hr : l.ref_count = list'.ref_count)
    (hit : l.iterator = list'.iterator) (hlist : l.list = (pre ++ heap'.next :: post).head?)
    (hfirst : l.first = (pre ++ heap'.next :: post).head?)
    (hlast : l.last = (pre ++ heap'.next :: post).getLast?) (hcount : l.node_count = list'.node_count + 1) :
    heap.Succeeds (some i) (some (0, { heap' with next := heap'.next + 1 }.put i l cells)) := by
  have hchain := hd.sound.isChain hd.lists
  rw [he] at hchain
  have hfresh : heap'.next ∉ pre ++ post := fun hm => Nat.lt_irrefl _ <| hd.sound.lt_of_mem hd.lists <| he ▸ hm
  have hmem {a} : a ∈ pre ++ heap'.next :: post ↔ a = heap'.next ∨ a ∈ pre ++ post := by
    simp only [List.mem_append, List.mem_cons]
    tauto
  have hnodup : (pre ++ heap'.next :: post).Nodup :=
    (List.nodup_middle).mpr <| List.nodup_cons.mpr ⟨hfresh, hchain.nodup⟩
  refine ⟨0, _, rfl, hd.finish (pre ++ heap'.next :: post) h hl rfl hr rfl (Nat.le_succ _) ?_ ?_ ?_ ?_ ?_⟩
  case refine_1 => exact fun iterator hi => Nat.lt_succ_of_lt <| hd.sound.iterator hd.lists <| hit ▸ hi
  case refine_2 => exact fun a ha hnot => hkept a (he ▸ hnot) <| Nat.ne_of_lt ha
  case refine_3 =>
    intro a c hc ha
    by_contra hnot
    have ⟨hne, hnot⟩ := not_or.mp <| hmem.not.mp hnot
    have hc : cells a = some c := hc
    rw [hkept a hnot hne, hd.sound.cells_eq_none <| ha.resolve_right <| he ▸ hnot] at hc
    cases hc
  case refine_4 =>
    intro a ha
    cases hmem.mp ha
    case inl ha => exact .inr ⟨Nat.le_of_eq ha.symm, ha ▸ Nat.lt_succ_self _⟩
    case inr ha => exact .inl <| he ▸ ha
  case refine_5 =>
    refine ⟨hlist, hfirst, hlast, ?_, hlinked, hnodup⟩
    rw [hcount, hchain.count]
    simp only [List.length_append, List.length_cons]
    omega

theorem listPrepend_succeeds (garbage : Nat → Option α) (payload : Option α) (h : Sound heap chain) :
    heap.Succeeds (some i) (heap.listPrepend garbage i payload) := by
  rw [listPrepend]
  cases hl : heap.lists i
  case none      => exact succeeds_self h _ _
  case some list =>
    have ⟨list', heap', chain', hdetach, hd⟩ := listDetach_spec garbage h hl
    have hchain := hd.sound.isChain hd.lists
    have hfresh : heap'.next ∉ chain' list'.ref_count := fun hm => Nat.lt_irrefl _ <| hd.sound.lt_of_mem hd.lists hm
    have ⟨cells, hset, hlinked, hkept⟩ := hchain.linked.cons hchain.nodup hfresh payload
    simp only [hdetach, hchain.list, hset, Option.bind_eq_bind, Option.bind_some]
    refine hd.insert [] _ h hl rfl hlinked hkept ?_ ?_ ?_ ?_ ?_ ?_
    case refine_5 =>
      rw [hchain.last]
      cases chain' list'.ref_count
      case nil  => rfl
      case cons => simp [List.getLast?_cons_cons]
    all_goals rfl

theorem listAppend_succeeds (garbage : Nat → Option α) (payload : Option α) (h : Sound heap chain) :
    heap.Succeeds (some i) (heap.listAppend garbage i payload) := by
  rw [listAppend]
  cases hl : heap.lists i
  case none      => exact succeeds_self h _ _
  case some list =>
    have ⟨list', heap', chain', hdetach, hd⟩ := listDetach_spec garbage h hl
    have hchain := hd.sound.isChain hd.lists
    have hfresh : heap'.next ∉ chain' list'.ref_count := fun hm => Nat.lt_irrefl _ <| hd.sound.lt_of_mem hd.lists hm
    have ⟨cells, hset, hlinked, hkept, _⟩ := hchain.linked.snoc hchain.nodup hfresh payload
    simp only [hdetach, hchain.last, hset, Option.bind_eq_bind, Option.bind_some]
    have he : chain' list'.ref_count ++ [] = chain' list'.ref_count := List.append_nil _
    rw [← he] at hkept
    refine hd.insert _ [] h hl he.symm hlinked hkept ?_ ?_ ?_ ?_ ?_ ?_
    case refine_5 => exact List.getLast?_concat.symm
    case refine_3 =>
      rw [hchain.list]
      cases chain' list'.ref_count
      case nil  => rfl
      case cons => simp [List.getLast?_cons]
    case refine_4 =>
      rw [hchain.first]
      cases chain' list'.ref_count
      case nil  => rfl
      case cons => simp [List.getLast?_cons]
    all_goals rfl

-- The node is one of the list, which shares it with no other one.
structure OwnNode (heap : ListHeap α) (list : LinkedList α) (a : Nat) : Prop where
  unshared : (heap.refCounts list.ref_count).isShared = false
  mem      : ∃ as, list.IsChain heap.cells as ∧ a ∈ as

theorem iterator?_eq_some {current : Nat} (hi : heap.iterator? i = some (list, current)) :
    heap.lists i = some list ∧ ∃ iterator, list.iterator = some iterator ∧ iterator.current = current := by
  have ⟨l, hl, hi⟩ := Option.bind_eq_some_iff.mp hi
  have ⟨iterator, hit, hi⟩ := Option.bind_eq_some_iff.mp hi
  have ⟨_, hi⟩ := Option.ite_none_right_eq_some.mp hi
  cases hi
  exact ⟨hl, iterator, hit, rfl⟩

-- Where the node is among those of the list.
theorem Detaches.split {current : Nat} (h : Sound heap chain) (hl : heap.lists i = some list)
    (hd : Detaches garbage heap chain i list heap' chain' list') (hown : heap.OwnNode list current) :
    ∃ pre post payload, chain' list'.ref_count = pre ++ current :: post ∧
      heap'.cells current = some ⟨payload, post.head?, pre.getLast?⟩ := by
  have ⟨as, has, hmem⟩ := hown.mem
  have hchain := hd.sound.isChain hd.lists
  have ⟨pre, post, he⟩ := List.append_of_mem hmem
  have he : chain' list'.ref_count = pre ++ current :: post := by
    rw [(hd.own hown.unshared).right, ← has.unique (h.isChain hl), he]
  rw [he] at hchain
  have ⟨payload, hc⟩ := hchain.linked.cell
  rw [Option.or_none, Option.or_none] at hc
  exact ⟨pre, post, payload, he, hc⟩

theorem listMutableIteratorPrepend_succeeds (garbage : Nat → Option α) (payload : Option α) (h : Sound heap chain)
    (hm : ∀ list current, heap.iterator? i = some (list, current) → heap.OwnNode list current) :
    heap.Succeeds (some i) (heap.listMutableIteratorPrepend garbage i payload) := by
  rw [listMutableIteratorPrepend]
  cases hi : heap.iterator? i
  case none   => exact succeeds_self h _ _
  case some p =>
    have ⟨list, current⟩ := p
    have ⟨hl, _⟩ := iterator?_eq_some hi
    have ⟨list', heap', chain', hdetach, hd⟩ := listDetach_spec garbage h hl
    have ⟨pre, post, payload', he, hc⟩ := hd.split h hl (hm list current hi)
    have hchain := he ▸ hd.sound.isChain hd.lists
    have hfresh : heap'.next ∉ pre ++ current :: post := fun hmem =>
      Nat.lt_irrefl _ <| hd.sound.lt_of_mem hd.lists <| he ▸ hmem
    have ⟨hpre, hpost⟩ := hchain.linked.alloc hfresh ⟨payload, some current, pre.getLast?⟩
    have ⟨cells₁, cells₂, hset₁, hset₂, hrelinked⟩ :=
      hpre.relink hpost hchain.nodup (some heap'.next) (some heap'.next)
    have ⟨hlinked, hkept, _⟩ := hrelinked.insert hfresh
    have hset₂ : cells₁.setPrevious current (some heap'.next) = some cells₂ := hset₂
    simp only [hdetach, hc, Option.bind_eq_bind, Option.bind_some]
    cases hp : pre.getLast?
    case none          =>
      have hnil : pre = [] := List.getLast?_eq_none_iff.mp hp
      subst hnil
      cases hset₁
      have hset₂ : Cells.setPrevious (update heap'.cells heap'.next <| some ⟨payload, some current, none⟩) current
          (some heap'.next) = some cells₂ := hset₂
      simp only [hset₂, Option.bind_some]
      refine hd.insert [] (current :: post) h hl he hlinked hkept ?_ ?_ ?_ ?_ hchain.last ?_
      all_goals rfl
    case some previous =>
      rw [hp] at hset₁
      have hset₁ : Cells.setNext (update heap'.cells heap'.next <| some ⟨payload, some current, some previous⟩) previous
          (some heap'.next) = some cells₁ := hset₁
      have hne : pre ≠ [] := fun hnil => nomatch (hnil ▸ hp : [].getLast? = some previous)
      simp only [hset₁, hset₂, Option.bind_some]
      refine hd.insert pre (current :: post) h hl he hlinked hkept ?_ ?_ ?_ ?_ ?_ ?_
      case refine_3 => exact hchain.list.trans <| by simp [List.head?_append_of_ne_nil _ hne]
      case refine_4 => exact hchain.first.trans <| by simp [List.head?_append_of_ne_nil _ hne]
      case refine_5 => exact hchain.last.trans <| by simp
      all_goals rfl

theorem listMutableIteratorAppend_succeeds (garbage : Nat → Option α) (payload : Option α) (h : Sound heap chain)
    (hm : ∀ list current, heap.iterator? i = some (list, current) → heap.OwnNode list current) :
    heap.Succeeds (some i) (heap.listMutableIteratorAppend garbage i payload) := by
  rw [listMutableIteratorAppend]
  cases hi : heap.iterator? i
  case none   => exact succeeds_self h _ _
  case some p =>
    have ⟨list, current⟩ := p
    have ⟨hl, _⟩ := iterator?_eq_some hi
    have ⟨list', heap', chain', hdetach, hd⟩ := listDetach_spec garbage h hl
    have ⟨pre, post, payload', he, hc⟩ := hd.split h hl (hm list current hi)
    have he : chain' list'.ref_count = pre ++ [current] ++ post := he.trans <| by simp
    have hchain := he ▸ hd.sound.isChain hd.lists
    have hfresh : heap'.next ∉ pre ++ [current] ++ post := fun hmem =>
      Nat.lt_irrefl _ <| hd.sound.lt_of_mem hd.lists <| he ▸ hmem
    have hlast : (pre ++ [current]).getLast? = some current := List.getLast?_concat
    have hhead (bs bs' : List Nat) : (pre ++ [current] ++ bs).head? = (pre ++ [current] ++ bs').head? := by
      simp [List.head?_append]
    have ⟨hpre, hpost⟩ := hchain.linked.alloc hfresh ⟨payload, post.head?, some current⟩
    have ⟨cells₁, cells₂, hset₁, hset₂, hrelinked⟩ :=
      hpre.relink' hpost hchain.nodup (some heap'.next) (some heap'.next)
    rw [← hlast] at hrelinked
    have ⟨hlinked, hkept, _⟩ := hrelinked.insert hfresh
    have hset₂ : cells₁.setNext current (some heap'.next) = some cells₂ := by rwa [hlast] at hset₂
    simp only [hdetach, hc, Option.bind_eq_bind, Option.bind_some]
    cases hp : post.head?
    case none      =>
      have hnil : post = [] := List.head?_eq_none_iff.mp hp
      subst hnil
      cases hset₁
      have hset₂ : Cells.setNext (update heap'.cells heap'.next <| some ⟨payload, none, some current⟩) current
          (some heap'.next) = some cells₂ := hset₂
      simp only [hset₂, Option.bind_some]
      refine hd.insert (pre ++ [current]) [] h hl he hlinked hkept ?_ ?_ (hchain.list.trans <| hhead _ _)
        (hchain.first.trans <| hhead _ _) List.getLast?_concat.symm ?_
      all_goals rfl
    case some next =>
      rw [hp] at hset₁
      have hset₁ : Cells.setPrevious (update heap'.cells heap'.next <| some ⟨payload, some next, some current⟩) next
          (some heap'.next) = some cells₁ := hset₁
      simp only [hset₁, hset₂, Option.bind_some]
      refine hd.insert (pre ++ [current]) post h hl he hlinked hkept ?_ ?_ (hchain.list.trans <| hhead _ _)
        (hchain.first.trans <| hhead _ _) (hchain.last.trans ?_) ?_
      case refine_3 =>
        have ⟨rest, hr⟩ := List.head?_eq_some_iff.mp hp
        simp [hr]
      all_goals rfl

-- The node has been taken out of the list.
theorem unlink_spec {cells : Cells (Option α)} {pre post : List Nat} {a : Nat} (payload : Option α)
    (h : list.IsChain cells (pre ++ a :: post)) :
    ∃ l cells', unlink list cells a ⟨payload, post.head?, pre.getLast?⟩ = some (l, cells') ∧
      l.IsChain cells' (pre ++ post) ∧ cells' a = none ∧ (∀ b, b ∉ pre ++ a :: post → cells' b = cells b) ∧
      l.ref_count = list.ref_count ∧ l.iterator = list.iterator := by
  have ⟨ha, hnodup⟩ := List.nodup_cons.mp <| List.nodup_middle.mp h.nodup
  have ⟨hpre, _, hpost⟩ := Cells.linked_append.mp h.linked
  have ⟨cells₁, cells₂, hset₁, hset₂, hrelinked⟩ := hpre.relink' hpost hnodup post.head? pre.getLast?
  have hlinked := hrelinked.remove ha
  have hkept (b) (hb : b ∉ pre ++ a :: post) : update cells₂ a none b = cells b := by
    have ⟨hbp, hb⟩ := not_or.mp <| List.mem_append.not.mp hb
    have ⟨hba, hb⟩ := not_or.mp <| List.mem_cons.not.mp hb
    rw [Function.update_of_ne hba, hrelinked.kept b hbp hb]
  have hcount : list.node_count - 1 = (pre ++ post).length := by
    rw [h.count]
    simp only [List.length_append, List.length_cons]
    omega
  have hlist := h.list
  have hfirst := h.first
  have hlast := h.last
  cases hn : post.head? <;> cases hp : pre.getLast? <;> rw [hn, hp] at hset₁ <;> rw [hn, hp] at hset₂
  case none.none               =>
    cases List.head?_eq_none_iff.mp hn
    cases List.getLast?_eq_none_iff.mp hp
    cases hset₁
    cases hset₂
    exact ⟨_, _, rfl, ⟨rfl, rfl, rfl, hcount, hlinked, hnodup⟩, Function.update_self .., hkept, rfl, rfl⟩
  case none.some previous      =>
    cases List.head?_eq_none_iff.mp hn
    cases hset₁
    have hset₂ : cells.setNext previous none = some cells₂ := hset₂
    have hhead : (pre ++ [a]).head? = (pre ++ []).head? := by
      rw [List.append_nil, List.head?_append_of_ne_nil]
      exact fun he => nomatch (he ▸ hp : [].getLast? = some previous)
    have hlast : some previous = (pre ++ []).getLast? := by rw [List.append_nil, hp]
    simp only [unlink, hset₂]
    exact ⟨_, _, rfl, ⟨hlist.trans hhead, hfirst.trans hhead, hlast, hcount, hlinked, hnodup⟩,
      Function.update_self .., hkept, rfl, rfl⟩
  case some.none next          =>
    cases List.getLast?_eq_none_iff.mp hp
    cases hset₂
    have hset₁ : cells.setPrevious next none = some cells₁ := hset₁
    have ⟨rest, hr⟩ := List.head?_eq_some_iff.mp hn
    simp only [unlink, hset₁]
    exact ⟨_, _, rfl, ⟨hn.symm, hn.symm, hlast.trans <| by simp [hr], hcount, hlinked, hnodup⟩,
      Function.update_self .., hkept, rfl, rfl⟩
  case some.some next previous =>
    have hset₁ : cells.setPrevious next (some previous) = some cells₁ := hset₁
    have hset₂ : cells₁.setNext previous (some next) = some cells₂ := hset₂
    have ⟨rest, hr⟩ := List.head?_eq_some_iff.mp hn
    have hhead : (pre ++ a :: post).head? = (pre ++ post).head? := by
      have hne : pre ≠ [] := fun he => nomatch (he ▸ hp : [].getLast? = some previous)
      rw [List.head?_append_of_ne_nil _ hne, List.head?_append_of_ne_nil _ hne]
    simp only [unlink, hset₁, hset₂, Option.bind_eq_bind, Option.bind_some]
    exact ⟨_, _, rfl,
      ⟨hlist.trans hhead, hfirst.trans hhead, hlast.trans <| by simp [hr], hcount, hlinked, hnodup⟩,
      Function.update_self .., hkept, rfl, rfl⟩

theorem Detaches.succeeds (h : Sound heap chain) (hl : heap.lists i = some list)
    (hd : Detaches garbage heap chain i list heap' chain' list') (r : Int) :
    heap.Succeeds (some i) (some (r, heap')) := by
  refine ⟨r, heap', rfl, hd.finish (chain' list'.ref_count) h hl ?_ rfl rfl (Nat.le_refl _)
    (fun _ => hd.sound.iterator hd.lists) (fun _ _ _ => rfl) ?_ (fun _ => .inl) (hd.sound.isChain hd.lists)⟩
  case refine_1 => rw [← hd.lists, Function.update_eq_self]
  case refine_2 =>
    intro a c hc ha
    apply ha.resolve_left
    intro hle
    exact nomatch hc.symm.trans <| hd.sound.cells_eq_none hle

theorem Detaches.remove {a : Nat} {cells : Cells (Option α)} {pre post : List Nat} (h : Sound heap chain)
    (hl : heap.lists i = some list) (hd : Detaches garbage heap chain i list heap' chain' list')
    (he : chain' list'.ref_count = pre ++ a :: post) (hchain : l.IsChain cells (pre ++ post)) (ha : cells a = none)
    (hkept : ∀ b, b ∉ pre ++ a :: post → cells b = heap'.cells b) (hr : l.ref_count = list'.ref_count)
    (hit : ∀ iterator, l.iterator = some iterator → iterator.current < heap'.next) :
    heap.Succeeds (some i) (some (0, heap'.put i l cells)) := by
  have hmem {b} : b ∈ chain' list'.ref_count ↔ b = a ∨ b ∈ pre ++ post := by
    rw [he]
    simp only [List.mem_append, List.mem_cons]
    tauto
  refine ⟨0, _, rfl, hd.finish (pre ++ post) h hl rfl hr rfl (Nat.le_refl _) hit (fun b _ hb => hkept b <| he ▸ hb)
    (fun b c hc hb => ?_) (fun b hb => .inl <| hmem.mpr <| .inr hb) hchain⟩
  have hc : cells b = some c := hc
  by_cases hb : b ∈ chain' list'.ref_count
  case pos =>
    apply (hmem.mp hb).resolve_left
    intro hba
    exact nomatch (hba ▸ hc).symm.trans ha
  case neg =>
    rw [hkept b (he ▸ hb), hd.sound.cells_eq_none <| ‹_ ∨ _›.resolve_right hb] at hc
    cases hc

theorem Detaches.neighbour_lt {a b : Nat} {pre post : List Nat}
    (hd : Detaches garbage heap chain i list heap' chain' list') (he : chain' list'.ref_count = pre ++ a :: post)
    (hb : post.head? = some b ∨ pre.getLast? = some b) : b < heap'.next := by
  apply hd.sound.lt_of_mem hd.lists
  rw [he, List.mem_append, List.mem_cons]
  cases hb
  case inl hb => exact .inr <| .inr <| List.mem_of_mem_head? hb
  case inr hb => exact .inl <| List.mem_of_getLast? hb

theorem listMutableIteratorRemove_succeeds (garbage : Nat → Option α) (h : Sound heap chain)
    (hm : ∀ list current, heap.iterator? i = some (list, current) → ∃ cell, heap.cells current = some cell ∧
      (cell.next = none ∧ cell.previous = none ∨ heap.OwnNode list current)) :
    heap.Succeeds (some i) (heap.listMutableIteratorRemove garbage i) := by
  rw [listMutableIteratorRemove]
  cases hi : heap.iterator? i
  case none   => exact succeeds_self h _ _
  case some p =>
    have ⟨list, current⟩ := p
    have ⟨hl, iterator, hit, hcurrent⟩ := iterator?_eq_some hi
    have hlt : current < heap.next := hcurrent ▸ h.iterator hl hit
    have ⟨list', heap', chain', hdetach, hd⟩ := listDetach_spec garbage h hl
    have ⟨cell, hc, hcase⟩ := hm list current hi
    have hc : heap'.cells current = some cell := (hd.cells current hlt).trans hc
    simp only [hdetach, hc, Option.bind_eq_bind, Option.bind_some]
    cases hnode : cell.next.or cell.previous
    case none      => exact hd.succeeds h hl (-1)
    case some node =>
      have hown := hcase.resolve_left fun hnone => by rw [hnone.left, hnone.right] at hnode; cases hnode
      have ⟨pre, post, payload, he, hc'⟩ := hd.split h hl hown
      cases hc.symm.trans hc'
      have hchain := he ▸ hd.sound.isChain hd.lists
      have ⟨l, cells, hunlink, hl', hnone, hkept, hr, _⟩ := unlink_spec payload hchain
      rw [hunlink]
      refine hd.remove h hl he ⟨hl'.list, hl'.first, hl'.last, hl'.count, hl'.linked, hl'.nodup⟩ hnone hkept hr ?_
      intro iterator hit
      cases hit
      exact hd.neighbour_lt he <| Option.or_eq_some_iff.mp hnode |>.imp_right And.right

-- The elements among which the search finds a match, as it comes first, and where it does so again.
def found [DecidableEq α] (list : LinkedList α) (payload : α) (elements : List (Option α)) : Bool :=
  elements.any fun element => element.elim false fun element => list.isMatch element payload

def foundAgain [DecidableEq α] (list : LinkedList α) (payload : α) : List (Option α) → Bool
  | []                       => false
  | none :: elements         => list.compare.isNone && foundAgain list payload elements
  | some element :: elements => list.isMatch element payload || foundAgain list payload elements

theorem listFindNode_eq [DecidableEq α] (list : LinkedList α) (payload : α) {cells : Cells (Option α)}
    {p : Option Nat} {fuel : Nat} (h : cells.Linked p as none) (hf : as.length < fuel) :
    listFindNode list payload fuel cells as.head? = some (found list payload (payloads cells as)) := by
  induction as generalizing p fuel
  case nil          =>
    cases fuel
    case zero => cases hf
    case succ => rfl
  case cons a as ih =>
    cases fuel
    case zero      => cases hf
    case succ fuel =>
      have ⟨⟨element, hc⟩, h⟩ := h
      have ih := ih h <| Nat.lt_of_succ_lt_succ hf
      have hp : payloads cells (a :: as) = element :: payloads cells as := by
        rw [payloads, List.map_cons, hc]
        rfl
      rw [List.head?_cons, listFindNode, hc, hp, found, List.any_cons]
      simp only [Option.or_none, Option.bind_eq_bind, Option.bind_some]
      cases element
      case none         => exact ih
      case some element =>
        dsimp only [Option.elim_some]
        cases list.isMatch element payload
        case true  => rfl
        case false => exact ih

theorem listFindAgain_eq [DecidableEq α] {cells : Cells (Option α)} {p : Option Nat} {fuel : Nat} {payload : α}
    (h : cells.Linked p as none) (hf : as.length < fuel) :
    (foundAgain list payload (payloads cells as) = true →
      ∃ a ∈ as, listFindAgain list payload fuel cells as.head? = some a) ∧
    (foundAgain list payload (payloads cells as) = false →
      listFindAgain list payload fuel cells as.head? = none) := by
  induction as generalizing p fuel
  case nil          =>
    cases fuel
    case zero => cases hf
    case succ => exact ⟨by rintro ⟨⟩, fun _ => rfl⟩
  case cons a as ih =>
    cases fuel
    case zero      => cases hf
    case succ fuel =>
      obtain ⟨⟨element, hc⟩, h⟩ := h
      obtain ⟨ih, ihn⟩ := ih h <| Nat.lt_of_succ_lt_succ hf
      have hp : payloads cells (a :: as) = element :: payloads cells as := by
        rw [payloads, List.map_cons, hc]
        rfl
      have ih := fun hfound => (ih hfound).imp fun b hb => And.intro (List.mem_cons_of_mem a hb.left) hb.right
      rw [List.head?_cons, listFindAgain, hc, hp]
      simp only [Option.or_none, Option.bind_eq_bind, Option.bind_some]
      cases element
      case none         =>
        simp only [foundAgain]
        cases list.compare
        case none => exact ⟨ih, ihn⟩
        case some => exact ⟨by rintro ⟨⟩, fun _ => rfl⟩
      case some element =>
        simp only [foundAgain]
        cases list.isMatch element payload
        case true  => exact ⟨fun _ => ⟨a, List.mem_cons_self, rfl⟩, by rintro ⟨⟩⟩
        case false => exact ⟨ih, ihn⟩

theorem isMatch_congr [DecidableEq α] (h : list'.compare = list.compare) : list'.isMatch = list.isMatch := by
  funext element payload
  rw [LinkedList.isMatch, LinkedList.isMatch, h]

theorem foundAgain_congr [DecidableEq α] {payload : α} {elements : List (Option α)}
    (h : list'.compare = list.compare) : foundAgain list' payload elements = foundAgain list payload elements := by
  induction elements
  case nil                   => rfl
  case cons element elements ih =>
    cases element
    case none => rw [foundAgain, foundAgain, ih, h]
    case some => rw [foundAgain, foundAgain, ih, isMatch_congr h]

-- What is removed is found again among the elements, once the nodes are those of the list.
def Removable [DecidableEq α] (garbage : Nat → Option α) (heap : ListHeap α) (list : LinkedList α) (payload : α) :
    Prop :=
  ∀ as, list.IsChain heap.cells as → found list payload (payloads heap.cells as) = true →
    foundAgain list payload (detachedPayloads garbage heap list as) = true

theorem iteratorLeaving_lt {a : Nat} {pre post : List Nat} {element : Option α} {iterator : ListMutableIterator}
    (hd : Detaches garbage heap chain i list heap' chain' list') (he : chain' list'.ref_count = pre ++ a :: post)
    (hit : list'.iterator = some iterator) :
    (iteratorLeaving a ⟨element, post.head?, pre.getLast?⟩ iterator).current < heap'.next := by
  have hlt := hd.sound.iterator hd.lists hit
  rw [iteratorLeaving]
  split
  case isFalse => exact hlt
  case isTrue  =>
    cases hn : post.head?
    case some next => exact hd.neighbour_lt he <| .inl hn
    case none      =>
      cases hp : pre.getLast?
      case some previous => exact hd.neighbour_lt he <| .inr hp
      case none          => exact hlt

theorem listRemove_succeeds [DecidableEq α] (garbage : Nat → Option α) (payload : Option α) (h : Sound heap chain)
    (hm : ∀ list x, heap.lists i = some list → payload = some x → heap.Removable garbage list x) :
    heap.Succeeds (some i) (heap.listRemove garbage i payload) := by
  rw [listRemove]
  cases hl : heap.lists i
  case none      => exact succeeds_self h _ _
  case some list =>
    cases payload
    case none         => exact succeeds_self h _ _
    case some payload =>
      have hchain := h.isChain hl
      have hfind := listFindNode_eq list payload hchain.linked <| h.length_lt hl
      rw [← hchain.list] at hfind
      simp only [hfind, Option.bind_eq_bind, Option.bind_some]
      cases hfound : found list payload (payloads heap.cells (chain list.ref_count))
      case false => exact succeeds_self h _ _
      case true  =>
        have ⟨list', heap', chain', hdetach, hd⟩ := listDetach_spec garbage h hl
        have hchain' := hd.sound.isChain hd.lists
        have hagain := hm list payload hl rfl _ hchain hfound
        rw [← hd.payloads, ← foundAgain_congr hd.compare] at hagain
        have ⟨a, ha, hagain⟩ := (listFindAgain_eq hchain'.linked <| hd.sound.length_lt hd.lists).left hagain
        rw [← hchain'.list] at hagain
        have ⟨pre, post, he⟩ := List.append_of_mem ha
        have hchain' := he ▸ hchain'
        have ⟨element, hc⟩ := hchain'.linked.cell
        rw [Option.or_none, Option.or_none] at hc
        have ⟨l, cells, hunlink, hl', hnone, hkept, hr, hit⟩ := @unlink_spec _
          { list' with iterator := list'.iterator.map (iteratorLeaving a ⟨element, post.head?, pre.getLast?⟩) }
          heap'.cells pre post a element
          ⟨hchain'.list, hchain'.first, hchain'.last, hchain'.count, hchain'.linked, hchain'.nodup⟩
        simp only [hdetach, hagain, hc, hunlink, Option.bind_some]
        apply hd.remove h hl he hl' hnone hkept hr
        intro iterator hiterator
        rw [hit] at hiterator
        have ⟨old, hold, hnew⟩ := Option.map_eq_some_iff.mp hiterator
        exact hnew ▸ iteratorLeaving_lt hd he hold

-- A change to the iterator of a list leaves the nodes as they are.
theorem setIterator_isolates (h : Sound heap chain) (hl : heap.lists i = some list)
    (iterator : ListMutableIterator) (hit : iterator.current < heap.next) :
    Sound (heap.put i { list with iterator := some iterator } heap.cells) chain ∧
      heap.Isolates (some i) (heap.put i { list with iterator := some iterator } heap.cells) := by
  have hlists (j) : (heap.put i { list with iterator := some iterator } heap.cells).lists j =
      if j = i then some { list with iterator := some iterator } else heap.lists j := Function.update_apply ..
  have hholds : (heap.put i { list with iterator := some iterator } heap.cells).holds = heap.holds := by
    rw [holds_update rfl]
    exact (congrArg _ (holds_eq hl).symm).trans <| Function.update_eq_self ..
  have hsound : Sound (heap.put i { list with iterator := some iterator } heap.cells) chain := by
    constructor
    case lt_next =>
      intro j l hj
      rw [hlists] at hj
      split at hj
      case isTrue hji =>
        cases hj
        have hlt := h.lt_next hl
        exact ⟨hji ▸ hlt.left, hlt.right⟩
      case isFalse    => exact h.lt_next hj
    case iterator =>
      intro j l it hj hi
      rw [hlists] at hj
      split at hj
      case isTrue  => cases hj; cases hi; exact hit
      case isFalse => exact h.iterator hj hi
    case sharing => exact hholds ▸ h.sharing
    case isChain =>
      intro j l hj
      rw [hlists] at hj
      split at hj
      case isTrue  =>
        cases hj
        have hchain := h.isChain hl
        exact ⟨hchain.list, hchain.first, hchain.last, hchain.count, hchain.linked, hchain.nodup⟩
      case isFalse => exact h.isChain hj
    case disjoint => exact fun hj hk => h.disjoint (hholds ▸ hj) (hholds ▸ hk)
    case owned    => exact hholds ▸ h.owned
  refine ⟨hsound, fun j l hij hj => ⟨?_, fun _ _ _ _ => rfl⟩, fun j l hj => ⟨_, hsound.isChain hj⟩⟩
  have hji : j ≠ i := fun he => hij <| he ▸ rfl
  rw [hlists, if_neg hji, hj]

theorem listMutableIteratorGet_succeeds (h : Sound heap chain) :
    (∃ chain, Sound (heap.listMutableIteratorGet i) chain) ∧ heap.Isolates (some i) (heap.listMutableIteratorGet i) := by
  rw [listMutableIteratorGet]
  cases hl : heap.lists i
  case none      => exact ⟨⟨chain, h⟩, .refl h _⟩
  case some list =>
    dsimp only
    split
    case h_1 first hit hfirst =>
      have hlt : first < heap.next := h.lt_of_mem hl <| List.mem_of_mem_head? <| (h.isChain hl).first ▸ hfirst
      have ⟨hsound, hisolates⟩ := setIterator_isolates h hl ⟨true, first⟩ hlt
      exact ⟨⟨chain, hsound⟩, hisolates⟩
    case h_2                 => exact ⟨⟨chain, h⟩, .refl h _⟩

theorem moveIterator_succeeds {target : ListNode α → Option Nat} (h : Sound heap chain)
    (ht : ∀ {a cell b}, heap.cells a = some cell → target cell = some b → b < heap.next)
    (hm : ∀ list current, heap.iterator? i = some (list, current) → (heap.cells current).isSome) :
    heap.Succeeds (some i) (heap.moveIterator target i) := by
  rw [moveIterator]
  cases hi : heap.iterator? i
  case none   => exact succeeds_self h _ _
  case some p =>
    have ⟨list, current⟩ := p
    have ⟨hl, _⟩ := iterator?_eq_some hi
    have ⟨cell, hc⟩ := Option.isSome_iff_exists.mp <| hm list current hi
    simp only [hc, Option.bind_eq_bind, Option.bind_some]
    cases htarget : target cell
    case none   => exact succeeds_self h _ _
    case some b =>
      have ⟨hsound, hisolates⟩ := setIterator_isolates h hl ⟨true, b⟩ (ht hc htarget)
      exact ⟨0, _, rfl, ⟨chain, hsound⟩, hisolates⟩

-- The links of a node lead to nodes.
theorem Sound.link_lt (h : Sound heap chain) {a b : Nat} {cell : ListNode α} (hc : heap.cells a = some cell)
    (hb : cell.next = some b ∨ cell.previous = some b) : b < heap.next := by
  have ⟨_, j, r, hj, hmem⟩ := h.owned hc
  have ⟨l, hl, hr⟩ := lists_of_holds hj
  subst hr
  have ⟨pre, post, he⟩ := List.append_of_mem hmem
  have ⟨_, hc'⟩ := (he ▸ (h.isChain hl).linked).cell
  rw [Option.or_none, Option.or_none] at hc'
  cases hc.symm.trans hc'
  apply h.lt_of_mem hl
  rw [he, List.mem_append, List.mem_cons]
  cases hb
  case inl hb => exact .inr <| .inr <| List.mem_of_mem_head? hb
  case inr hb => exact .inl <| List.mem_of_getLast? hb

-- A list that is added with nodes that no list has, or with those of a list that it shares them with.
theorem Sound.add {n : Nat} (chain' : Nat → List Nat) (h : Sound heap chain) (hlists : heap'.lists = update heap.lists heap.next (some l))
    (hcells : heap'.cells = heap.cells) (hn : heap.next + n = heap'.next) (hpos : 0 < n)
    (hr : l.ref_count < heap'.next) (hit : l.iterator = none)
    (hsharing : Sharing (update heap.holds heap.next (some l.ref_count)) heap'.refCounts)
    (hchain : l.IsChain heap.cells (chain' l.ref_count)) (hold : ∀ j r, heap.holds j = some r → chain' r = chain r)
    (hcase : (∃ j, heap.holds j = some l.ref_count) ∨ chain' l.ref_count = []) :
    (∃ chain, Sound heap' chain) ∧ heap.Isolates none heap' := by
  have hne {j m} (hj : heap.lists j = some m) : j ≠ heap.next := Nat.ne_of_lt (h.lt_next hj).left
  have hholds : heap'.holds = update heap.holds heap.next (some l.ref_count) := holds_update hlists
  have hlists (j) : heap'.lists j = if j = heap.next then some l else heap.lists j := by
    rw [hlists, Function.update_apply]
  have hcases {j r} (hj : heap'.holds j = some r) : j = heap.next ∧ r = l.ref_count ∨ j ≠ heap.next ∧ heap.holds j = some r := by
    rw [hholds] at hj
    exact Sharing.update_eq_some.mp hj
  have hdisjoint {j r} (hj : heap.holds j = some r) (hne : l.ref_count ≠ r) :
      (chain' l.ref_count).Disjoint (chain r) := by
    cases hcase
    case inl hk =>
      have ⟨k, hk⟩ := hk
      rw [hold k _ hk]
      exact h.disjoint hk hj hne
    case inr hnil =>
      rw [hnil]
      exact List.disjoint_nil_left _
  have hsound : Sound heap' chain' := by
    constructor
    case lt_next =>
      intro j m hj
      rw [hlists] at hj
      split at hj
      case isTrue hji => cases hj; exact ⟨by omega, hr⟩
      case isFalse    =>
        have := h.lt_next hj
        omega
    case iterator =>
      intro j m it hj hi
      rw [hlists] at hj
      split at hj
      case isTrue  => cases hj; exact nomatch hi.symm.trans hit
      case isFalse =>
        have := h.iterator hj hi
        omega
    case sharing => exact hholds ▸ hsharing
    case isChain =>
      intro j m hj
      rw [hlists] at hj
      rw [hcells]
      split at hj
      case isTrue  => cases hj; exact hchain
      case isFalse => exact hold j _ (holds_eq hj) ▸ h.isChain hj
    case disjoint =>
      intro j k r s hj hk hne
      cases hcases hj <;> cases hcases hk
      case inl.inl hj hk => exact absurd (hj.right.trans hk.right.symm) hne
      case inl.inr hj hk =>
        rw [hj.right, hold k s hk.right]
        exact hdisjoint hk.right (hj.right ▸ hne)
      case inr.inl hj hk =>
        rw [hk.right, hold j r hj.right]
        exact (hdisjoint hj.right (hk.right ▸ hne.symm)).symm
      case inr.inr hj hk =>
        rw [hold j r hj.right, hold k s hk.right]
        exact h.disjoint hj.right hk.right hne
    case owned =>
      intro a c hc
      have ⟨hlt, j, r, hj, hmem⟩ := h.owned <| hcells ▸ hc
      have ⟨m, hm, _⟩ := lists_of_holds hj
      refine ⟨by omega, j, r, ?_, hold j r hj ▸ hmem⟩
      rw [hholds, Function.update_of_ne (hne hm), hj]
  refine ⟨⟨chain', hsound⟩, fun j m _ hj => ⟨?_, fun _ _ _ _ => by rw [hcells]⟩, fun j m hj => ⟨_, hsound.isChain hj⟩⟩
  rw [hlists, if_neg (hne hj), hj]

theorem listNew_isolates (h : Sound heap chain) (compare : Option (α → α → Int)) (copy : Option (Nat → α → α)) :
    (∃ chain, Sound (heap.listNew compare copy) chain) ∧ heap.Isolates none (heap.listNew compare copy) := by
  have hnone : heap.holds heap.next = none := by
    rw [holds, h.lists_eq_none <| Nat.le_refl _]
    rfl
  have hchain : update chain (heap.next + 1) [] (heap.next + 1) = [] := Function.update_self ..
  refine h.add (update chain (heap.next + 1) []) rfl rfl rfl (Nat.succ_pos 1) (Nat.lt_succ_self _) rfl ?_ ?_ ?_ (.inr hchain)
  case refine_1 => exact h.sharing.attach_new hnone fun j => h.holds_ne <| Nat.le_succ _
  case refine_2 =>
    rw [hchain]
    exact ⟨rfl, rfl, rfl, rfl, trivial, List.nodup_nil⟩
  case refine_3 =>
    intro j r hj
    exact Function.update_of_ne (fun he => h.holds_ne (Nat.le_succ _) <| he ▸ hj) _ _

theorem listCopy_isolates (h : Sound heap chain) :
    (∃ chain, Sound (heap.listCopy i).2 chain) ∧ heap.Isolates none (heap.listCopy i).2 := by
  rw [listCopy]
  cases hl : heap.lists i
  case none      => exact ⟨⟨chain, h⟩, .refl h _⟩
  case some list =>
    dsimp only
    split
    case isTrue  => exact ⟨⟨chain, h⟩, .refl h _⟩
    case isFalse =>
      have hnone : heap.holds heap.next = none := by
        rw [holds, h.lists_eq_none <| Nat.le_refl _]
        rfl
      have hchain := h.isChain hl
      have hholds := holds_eq hl
      refine h.add chain rfl rfl rfl Nat.one_pos (Nat.lt_succ_of_lt (h.lt_next hl).right) rfl ?_ ?_
        (fun _ _ _ => rfl) (.inl ⟨i, hholds⟩)
      case refine_1 => exact h.sharing.attach hnone hholds
      case refine_2 => exact ⟨hchain.list, hchain.first, hchain.last, hchain.count, hchain.linked, hchain.nodup⟩

end ListHeap
end CfEngine.Libutils
