import Mathlib.Data.Set.Card
import Mathlib.Logic.Function.Basic
import Mathlib.Data.List.Sigma

-- Lists of entries as finite maps. The keys are taken up to an equivalence.

namespace Entries

open Classical Function

variable {α β : Type*} [s : Setoid α] {items items' pre post : List (α × β)} {m : Quotient s → Option β} {k k' : α} {v v' : β}

-- The entries are those of the map, each of them once.
structure Represents (items : List (α × β)) (m : Quotient s → Option β) : Prop where
  nodup : (items.map fun item => (⟦item.1⟧ : Quotient s)).Nodup
  mem   : ∀ q v, m q = some v ↔ ∃ item ∈ items, ⟦item.1⟧ = q ∧ item.2 = v

namespace Represents

theorem nil : Represents ([] : List (α × β)) fun (_ : Quotient s) => none where
  nodup := List.nodup_nil
  mem   := by simp

theorem perm (h : Represents items m) (hp : items.Perm items') : Represents items' m where
  nodup := (hp.map _).nodup_iff.mp h.nodup
  mem   := fun q v => by simp only [h.mem, hp.mem_iff]

theorem eq_none (h : Represents items m) (hk : ∀ item ∈ items, ¬item.1 ≈ k) : m ⟦k⟧ = none := by
  cases hm : m ⟦k⟧
  case none   => rfl
  case some v =>
    have ⟨item, hmem, he, _⟩ := (h.mem _ v).mp hm
    exact absurd (Quotient.exact he) <| hk item hmem

theorem eq_some (h : Represents items m) (hmem : (k', v) ∈ items) (hk : k' ≈ k) : m ⟦k⟧ = some v :=
  (h.mem _ v).mpr ⟨_, hmem, Quotient.sound hk, rfl⟩

theorem cons (h : Represents items m) (hk : ∀ item ∈ items, ¬item.1 ≈ k) (v : β) :
    Represents ((k, v) :: items) (update m ⟦k⟧ (some v)) where
  nodup := by
    refine List.nodup_cons.mpr ⟨fun hmem => ?_, h.nodup⟩
    have ⟨item, hmem, he⟩ := List.mem_map.mp hmem
    exact hk item hmem <| Quotient.exact he
  mem   := by
    intro q w
    by_cases hq : q = ⟦k⟧
    case pos =>
      subst hq
      rw [update_self]
      constructor
      case mp  => exact fun he => ⟨_, List.mem_cons_self, rfl, Option.some.inj he⟩
      case mpr =>
        intro ⟨item, hmem, he, hw⟩
        cases List.mem_cons.mp hmem
        case inl hitem => rw [← hw, hitem]
        case inr hmem  => exact absurd (Quotient.exact he) <| hk item hmem
    case neg =>
      rw [update_of_ne hq, h.mem]
      constructor
      case mp  => exact fun ⟨item, hmem, he⟩ => ⟨item, List.mem_cons_of_mem _ hmem, he⟩
      case mpr =>
        intro ⟨item, hmem, he, hw⟩
        cases List.mem_cons.mp hmem
        case inl hitem => exact absurd (he.symm.trans <| hitem ▸ rfl) hq
        case inr hmem  => exact ⟨item, hmem, he, hw⟩

-- The first of the entries is taken out.
theorem tail (h : Represents ((k, v) :: items) m) : Represents items (update m ⟦k⟧ none) where
  nodup := (List.nodup_cons.mp h.nodup).right
  mem   := by
    have hnot := (List.nodup_cons.mp h.nodup).left
    intro q w
    by_cases hq : q = ⟦k⟧
    case pos =>
      subst hq
      rw [update_self]
      refine ⟨nofun, fun ⟨item, hmem, he, _⟩ => ?_⟩
      exact absurd (List.mem_map.mpr ⟨item, hmem, he⟩) hnot
    case neg =>
      rw [update_of_ne hq, h.mem]
      constructor
      case mp  =>
        intro ⟨item, hmem, he, hw⟩
        cases List.mem_cons.mp hmem
        case inl hitem => exact absurd (he.symm.trans <| hitem ▸ rfl) hq
        case inr hmem  => exact ⟨item, hmem, he, hw⟩
      case mpr => exact fun ⟨item, hmem, he⟩ => ⟨item, List.mem_cons_of_mem _ hmem, he⟩

theorem head_not_mem (h : Represents ((k, v) :: items) m) : ∀ item ∈ items, ¬item.1 ≈ k := fun item hmem he =>
  (List.nodup_cons.mp h.nodup).left <| List.mem_map.mpr ⟨item, hmem, Quotient.sound he⟩

theorem remove (h : Represents (pre ++ (k, v) :: post) m) : Represents (pre ++ post) (update m ⟦k⟧ none) :=
  (h.perm List.perm_middle).tail

theorem replace (h : Represents (pre ++ (k, v) :: post) m) (v' : β) :
    Represents (pre ++ (k, v') :: post) (update m ⟦k⟧ (some v')) := by
  have h := h.perm List.perm_middle
  have hnew := h.tail.cons h.head_not_mem v'
  rw [update_idem] at hnew
  exact hnew.perm List.perm_middle.symm

theorem unique {m' : Quotient s → Option β} (h : Represents items m) (h' : Represents items m') : m = m' := by
  funext q
  ext v
  rw [h.mem, h'.mem]

theorem snoc (h : Represents items m) (hk : ∀ item ∈ items, ¬item.1 ≈ k) (v : β) :
    Represents (items ++ [(k, v)]) (update m ⟦k⟧ (some v)) :=
  (h.cons hk v).perm (List.perm_append_singleton ..).symm

-- What is made of the entries one after the other.
theorem foldl {m' : Quotient s → Option β} (h : Represents (pre ++ items) m) (h' : Represents pre m') :
    items.foldl (fun m item => update m ⟦item.1⟧ (some item.2)) m' = m := by
  induction items generalizing pre m'
  case nil                => exact h'.unique <| List.append_nil pre ▸ h
  case cons item items ih =>
    rw [List.foldl_cons]
    refine ih (List.append_cons .. ▸ h) <| h'.snoc (fun other hmem he => ?_) item.2
    have hnodup := (h.perm List.perm_middle).head_not_mem
    exact hnodup other (List.mem_append_left _ hmem) he

theorem ncard (h : Represents items m) : {q | (m q).isSome}.ncard = items.length := by
  have he : {q | (m q).isSome} = (items.map fun item => (⟦item.1⟧ : Quotient s)).toFinset := by
    ext q
    rw [Set.mem_setOf_eq, Option.isSome_iff_exists, List.coe_toFinset, Set.mem_setOf_eq, List.mem_map]
    simp only [h.mem]
    exact ⟨fun ⟨_, item, hmem, he, _⟩ => ⟨item, hmem, he⟩, fun ⟨item, hmem, he⟩ => ⟨_, item, hmem, he, rfl⟩⟩
  rw [he, Set.ncard_coe_finset, List.toFinset_card_of_nodup h.nodup, List.length_map]

end Represents
end Entries

-- Lists of entries with keys, as an addition to what is known about `dlookup`.

namespace List

variable {α : Type*} {β : α → Type*} [DecidableEq α] {l l' : List (Sigma β)} {a a' : α} {b : β a}

theorem dlookup_kreplace (h : a ∈ l.keys) : (l.kreplace a b).dlookup a = some b := by
  induction l
  case nil           => nomatch h
  case cons entry l ih =>
    unfold kreplace at ih ⊢
    obtain ⟨k, v⟩ := entry
    by_cases hk : a = k
    case pos =>
      subst hk
      rw [lookmap_cons_some _ _ (dif_pos rfl)]
      exact dlookup_cons_eq ..
    case neg =>
      rw [lookmap_cons_none _ _ (dif_neg hk), dlookup_cons_ne _ _ hk]
      exact ih <| (mem_cons.mp h).resolve_left hk

theorem dlookup_kreplace_ne (h : a' ≠ a) : (l.kreplace a b).dlookup a' = l.dlookup a' := by
  induction l
  case nil           => rfl
  case cons entry l ih =>
    unfold kreplace at ih ⊢
    obtain ⟨k, v⟩ := entry
    by_cases hk : a = k
    case pos =>
      subst hk
      rw [lookmap_cons_some _ _ (dif_pos rfl), dlookup_cons_ne _ _ h, dlookup_cons_ne _ _ h]
    case neg =>
      rw [lookmap_cons_none _ _ (dif_neg hk)]
      by_cases hk' : a' = k
      case pos =>
        subst hk'
        rw [dlookup_cons_eq, dlookup_cons_eq]
      case neg => rw [dlookup_cons_ne _ _ hk', dlookup_cons_ne _ _ hk', ih]

-- It suffices to compare in one direction if there are equally many entries.
theorem perm_iff_dlookup (h : l.NodupKeys) (h' : l'.NodupKeys) :
    l.Perm l' ↔ l.length = l'.length ∧ ∀ entry ∈ l, l'.dlookup entry.1 = some entry.2 := by
  constructor
  case mp  =>
    intro hp
    refine ⟨hp.length_eq, fun entry he => ?_⟩
    exact mem_dlookup h' <| hp.mem_iff.mp he
  case mpr =>
    intro ⟨hl, hmem⟩
    have hsub : l ⊆ l' := fun entry he => of_mem_dlookup <| hmem entry he
    exact (subperm_of_subset (Nodup.of_map _ h) hsub).perm_of_length_le <| Nat.le_of_eq hl.symm

theorem perm_of_dlookup_eq (h : l.NodupKeys) (h' : l'.NodupKeys) (he : ∀ a, l.dlookup a = l'.dlookup a) :
    l.Perm l' :=
  lookup_ext h h' fun a b => by rw [he]

end List
