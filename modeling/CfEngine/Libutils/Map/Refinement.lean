import Mathlib.Order.CompletePartialOrder
import CfEngine.Library.Entries
import CfEngine.Libutils.Strings
import CfEngine.Libutils.Map

namespace CfEngine.Libutils

open Function (update)

variable {α β : Type} {equal_fn : α → α → Bool} {hash_fn : α → Nat → Nat} {key : α} {value : β}
  {items items' : List (MapKeyValue α β)}

theorem replaceValue_eq_some (h : replaceValue equal_fn key value items = some items') :
    ∃ pre k v post, items = pre ++ (k, v) :: post ∧ equal_fn k key = true ∧ items' = pre ++ (k, value) :: post := by
  induction items generalizing items'
  case nil                => cases h
  case cons item items ih =>
    rw [replaceValue] at h
    split at h
    case isTrue hk  => exact ⟨[], item.1, item.2, items, rfl, hk, (Option.some.inj h).symm⟩
    case isFalse hk =>
      obtain ⟨_, h, he⟩ := Option.map_eq_some_iff.mp h
      obtain ⟨pre, k, v, post, hi, hk, hi'⟩ := ih h
      exact ⟨item :: pre, k, v, post, hi ▸ rfl, hk, he ▸ hi' ▸ rfl⟩

theorem replaceValue_eq_none (h : replaceValue equal_fn key value items = none) :
    ∀ item ∈ items, ¬equal_fn item.1 key = true := by
  induction items
  case nil                => exact nofun
  case cons item items ih =>
    rw [replaceValue] at h
    split at h
    case isTrue     => cases h
    case isFalse hk => exact List.forall_mem_cons.mpr ⟨hk, ih <| Option.map_eq_none_iff.mp h⟩

theorem removeItem_eq_some (h : removeItem equal_fn key items = some items') :
    ∃ pre k v post, items = pre ++ (k, v) :: post ∧ equal_fn k key = true ∧ items' = pre ++ post := by
  induction items generalizing items'
  case nil                => cases h
  case cons item items ih =>
    rw [removeItem] at h
    split at h
    case isTrue hk  => exact ⟨[], item.1, item.2, items, rfl, hk, (Option.some.inj h).symm⟩
    case isFalse hk =>
      obtain ⟨_, h, he⟩ := Option.map_eq_some_iff.mp h
      obtain ⟨pre, k, v, post, hi, hk, hi'⟩ := ih h
      exact ⟨item :: pre, k, v, post, hi ▸ rfl, hk, he ▸ hi' ▸ rfl⟩

theorem removeItem_eq_none (h : removeItem equal_fn key items = none) :
    ∀ item ∈ items, ¬equal_fn item.1 key = true := by
  induction items
  case nil                => exact nofun
  case cons item items ih =>
    rw [removeItem] at h
    split at h
    case isTrue     => cases h
    case isFalse hk => exact List.forall_mem_cons.mpr ⟨hk, ih <| Option.map_eq_none_iff.mp h⟩

theorem findItem_eq_none (h : findItem equal_fn key items = none) : ∀ item ∈ items, ¬equal_fn item.1 key = true :=
  List.find?_eq_none.mp h

theorem iterate_eq (i : MapIterator α β) : iterate i = i.remaining := by
  induction i using iterate.induct
  case case1 i item i' h ih =>
    rw [iterate, mapIteratorNext_some h]
    split
    case h_1 heq => cases h.symm.trans heq; rw [ih]
    case h_2 heq => cases h.symm.trans heq
  case case2 i i' h         =>
    rw [iterate, mapIteratorNext_none h]
    split
    case h_1 heq => cases h.symm.trans heq
    case h_2     => rfl

theorem countItems_eq (i : MapIterator α β) (size : Nat) : countItems i size = size + i.remaining.length := by
  induction i, size using countItems.induct
  case case1 i size item i' h ih =>
    rw [countItems, mapIteratorNext_some h, List.length_cons]
    split
    case h_1 heq =>
      cases h.symm.trans heq
      rw [ih]
      omega
    case h_2 heq => cases h.symm.trans heq
  case case2 i size i' h         =>
    rw [countItems, mapIteratorNext_none h]
    split
    case h_1 heq => cases h.symm.trans heq
    case h_2     => rfl

theorem size_eq (map : Map α β) : map.size = map.iteratorInit.remaining.length := by
  cases map
  case arraymap => rfl
  case hashmap  => exact (countItems_eq _ 0).trans <| Nat.zero_add _

-- The functions that a map is made with: keys are equal up to an equivalence, and equal keys share a bucket.
structure HashesKeys (s : Setoid α) (hash_fn : α → Nat → Nat) (equal_fn : α → α → Bool) : Prop where
  equal : ∀ k k', equal_fn k k' = true ↔ k ≈ k'
  lt    : ∀ k, hash_fn k HASHMAP_BUCKETS < HASHMAP_BUCKETS
  congr : ∀ k k', equal_fn k k' = true → hash_fn k HASHMAP_BUCKETS = hash_fn k' HASHMAP_BUCKETS

-- What a call does to the finite map that is meant.
open Classical in
noncomputable def MapCall.apply [s : Setoid α] (m : Quotient s → Option β) : MapCall α β → Quotient s → Option β
  | insert key value => update m ⟦key⟧ (some value)
  | remove key       => update m ⟦key⟧ none
  | clear            => fun _ => none

variable [s : Setoid α] {m : Quotient s → Option β}

-- The loops on a part of the entries where no entry with the key is in the other parts.
section

variable {before after : List (MapKeyValue α β)}

theorem HashesKeys.replaceValue (hs : HashesKeys s hash_fn equal_fn)
    (h : Entries.Represents (before ++ (items ++ after)) m)
    (hr : replaceValue equal_fn key value items = some items') :
    Entries.Represents (before ++ (items' ++ after)) ((MapCall.insert key value).apply m) := by
  have ⟨pre, k, v, post, hi, hk, hi'⟩ := replaceValue_eq_some hr
  have he : (⟦key⟧ : Quotient s) = ⟦k⟧ := (Quotient.sound <| (hs.equal k key).mp hk).symm
  subst hi hi'
  rw [List.append_assoc, ← List.append_assoc] at h ⊢
  rw [MapCall.apply, he]
  exact h.replace value

theorem HashesKeys.removeItem (hs : HashesKeys s hash_fn equal_fn)
    (h : Entries.Represents (before ++ (items ++ after)) m) (hr : removeItem equal_fn key items = some items') :
    m ⟦key⟧ ≠ none ∧ Entries.Represents (before ++ (items' ++ after)) ((MapCall.remove key).apply m) := by
  have ⟨pre, k, v, post, hi, hk, hi'⟩ := removeItem_eq_some hr
  have hk := (hs.equal k key).mp hk
  have he : (⟦key⟧ : Quotient s) = ⟦k⟧ := (Quotient.sound hk).symm
  subst hi hi'
  have hmem : (k, v) ∈ before ++ (pre ++ (k, v) :: post ++ after) := by simp
  have hm := h.eq_some hmem hk
  rw [List.append_assoc, ← List.append_assoc] at h ⊢
  rw [MapCall.apply, he]
  exact ⟨fun hnone => (nomatch (he ▸ hm).symm.trans hnone), h.remove⟩

theorem HashesKeys.not_mem (hs : HashesKeys s hash_fn equal_fn)
    (hitems : ∀ item ∈ items, ¬equal_fn item.1 key = true) (hb : ∀ item ∈ before ++ after, ¬item.1 ≈ key) :
    ∀ item ∈ before ++ (items ++ after), ¬item.1 ≈ key := by
  intro item hmem
  rw [List.mem_append, List.mem_append] at hmem
  rcases hmem with hmem | hmem | hmem
  · exact hb item <| List.mem_append_left _ hmem
  · exact fun he => hitems item hmem <| (hs.equal ..).mpr he
  · exact hb item <| List.mem_append_right _ hmem

theorem apply_remove_of_eq_none (h : m ⟦key⟧ = none) : (MapCall.remove key).apply m = m := by
  classical
  rw [MapCall.apply, ← h, Function.update_eq_self]

-- What is found, with its current value.
theorem HashesKeys.findItem (hs : HashesKeys s hash_fn equal_fn)
    (h : Entries.Represents (before ++ (items ++ after)) m) (hb : ∀ item ∈ before ++ after, ¬item.1 ≈ key) :
    (findItem equal_fn key items).map Prod.snd = m ⟦key⟧ := by
  cases hf : Libutils.findItem equal_fn key items
  case none      => exact (h.eq_none <| hs.not_mem (findItem_eq_none hf) hb).symm
  case some item =>
    have hmem : item ∈ before ++ (items ++ after) := by simp [List.mem_of_find?_eq_some hf]
    have hk : equal_fn item.1 key = true :=
      List.find?_some (p := fun item : MapKeyValue α β => equal_fn item.1 key) hf
    exact (h.eq_some hmem <| (hs.equal ..).mp hk).symm

end

-- The array has the entries of the map.
structure ArrayMap.Represents (equal_fn : α → α → Bool) (map : ArrayMap α β) (m : Quotient s → Option β) : Prop where
  equal   : map.equal_fn = equal_fn
  entries : Entries.Represents map.values m

theorem ArrayMap.Represents.whole {map : ArrayMap α β} (h : map.Represents equal_fn m) :
    Entries.Represents ([] ++ (map.values ++ [])) m := by
  rw [List.append_nil]
  exact h.entries

-- The buckets have the entries of the map, each where its key belongs.
structure HashMap.Represents (hash_fn : α → Nat → Nat) (equal_fn : α → α → Bool) (map : HashMap α β)
    (m : Quotient s → Option β) : Prop where
  hash    : map.hash_fn = hash_fn
  equal   : map.equal_fn = equal_fn
  entries : Entries.Represents map.buckets.flatten m
  placed  : ∀ b items, map.buckets[b]? = some items → ∀ item ∈ items, hash_fn item.1 HASHMAP_BUCKETS = b

section

variable (hs : HashesKeys s hash_fn equal_fn)

include hs

section

variable {map : ArrayMap α β}

theorem arrayMapInsert_spec (h : map.Represents equal_fn m) {map' : ArrayMap α β}
    (hr : map.insert key value = some map') : map'.Represents equal_fn ((MapCall.insert key value).apply m) := by
  have he := h.equal
  subst he
  rw [ArrayMap.insert] at hr
  split at hr
  case isTrue  => cases hr
  case isFalse =>
    split at hr
    case h_1 values hv =>
      cases hr
      have hnew := hs.replaceValue h.whole hv
      rw [List.append_nil] at hnew
      exact ⟨rfl, hnew⟩
    case h_2 hv        =>
      cases hr
      have hnot := fun item hmem he => replaceValue_eq_none hv item hmem <| (hs.equal ..).mpr he
      exact ⟨rfl, h.entries.snoc hnot value⟩

theorem arrayMapRemove_spec (h : map.Represents equal_fn m) (key : α) :
    (map.remove key).1 = (m ⟦key⟧).isSome ∧
      (map.remove key).2.Represents equal_fn ((MapCall.remove key).apply m) := by
  have he := h.equal
  subst he
  rw [ArrayMap.remove]
  split
  case h_1 values hv =>
    have ⟨hm, hnew⟩ := hs.removeItem h.whole hv
    rw [List.append_nil] at hnew
    exact ⟨(Option.isSome_iff_ne_none.mpr hm).symm, rfl, hnew⟩
  case h_2 hv        =>
    have hnot := @HashesKeys.not_mem _ _ _ _ _ _ _ [] [] hs (removeItem_eq_none hv) nofun
    have hm := h.whole.eq_none hnot
    rw [apply_remove_of_eq_none hm, hm]
    exact ⟨rfl, h⟩

theorem arrayMapGet_spec (h : map.Represents equal_fn m) (key : α) : (map.get key).map Prod.snd = m ⟦key⟧ := by
  rw [ArrayMap.get, h.equal]
  exact hs.findItem h.whole nofun

end

section

variable {map : HashMap α β}

-- The bucket of the key, with those before and after it, in which no key is equal.
theorem getBucket_spec (h : map.Represents hash_fn equal_fn m) (key : α) :
    ∃ pre items post, map.buckets = pre ++ items :: post ∧ pre.length = map.getBucket key ∧
      map.buckets[map.getBucket key]? = some items ∧ ∀ item ∈ pre.flatten ++ post.flatten, ¬item.1 ≈ key := by
  have hlt : map.getBucket key < map.buckets.length := by
    rw [HashMap.getBucket, h.hash, map.length]
    exact hs.lt key
  have hsplit := (List.take_append_drop (map.getBucket key) map.buckets).symm
  rw [List.drop_eq_getElem_cons hlt] at hsplit
  refine ⟨_, _, _, hsplit, List.length_take_of_le <| Nat.le_of_lt hlt, List.getElem?_eq_getElem hlt, ?_⟩
  intro item hmem he
  have hb : hash_fn item.1 HASHMAP_BUCKETS = map.getBucket key := by
    rw [HashMap.getBucket, h.hash]
    exact hs.congr _ _ <| (hs.equal ..).mpr he
  have hplaced {b items} (hb' : map.buckets[b]? = some items) (hmem : item ∈ items) : b = map.getBucket key :=
    (h.placed b items hb' item hmem).symm.trans hb
  cases List.mem_append.mp hmem
  case inl hmem =>
    have ⟨items, hitems, hmem⟩ := List.mem_flatten.mp hmem
    have ⟨b, hb'⟩ := List.mem_iff_getElem?.mp hitems
    rw [List.getElem?_take] at hb'
    split at hb'
    case isTrue hlt => exact Nat.ne_of_lt hlt <| hplaced hb' hmem
    case isFalse    => cases hb'
  case inr hmem =>
    have ⟨items, hitems, hmem⟩ := List.mem_flatten.mp hmem
    have ⟨b, hb'⟩ := List.mem_iff_getElem?.mp hitems
    rw [List.getElem?_drop] at hb'
    have := hplaced hb' hmem
    omega

omit hs in
theorem setBucket_represents (h : map.Represents hash_fn equal_fn m) {m' : Quotient s → Option β}
    {pre post : List (List (MapKeyValue α β))} (hb : map.buckets = pre ++ items :: post)
    (hitems : ∀ item ∈ items', hash_fn item.1 HASHMAP_BUCKETS = pre.length)
    (hentries : Entries.Represents (pre.flatten ++ (items' ++ post.flatten)) m') :
    (map.setBucket pre.length items').Represents hash_fn equal_fn m' := by
  refine ⟨h.hash, h.equal, ?_, fun b other hother => ?_⟩
  case refine_1 =>
    change Entries.Represents (map.buckets.set pre.length items').flatten m'
    rw [hb, List.set_append_right _ _ (Nat.le_refl _), Nat.sub_self, List.set_cons_zero,
      List.flatten_append, List.flatten_cons]
    exact hentries
  case refine_2 =>
    simp only [HashMap.setBucket, List.getElem?_set] at hother
    split at hother
    case isFalse         => exact h.placed b other hother
    case isTrue hlength =>
      split at hother
      case isFalse => cases hother
      case isTrue  =>
        cases hother
        exact hlength ▸ hitems

theorem hashMapInsert_spec (h : map.Represents hash_fn equal_fn m) (key : α) (value : β) :
    ∃ present map', map.insert key value = some (present, map') ∧
      map'.Represents hash_fn equal_fn ((MapCall.insert key value).apply m) := by
  have ⟨pre, items, post, hb, hlen, hget, hnot⟩ := getBucket_spec hs h key
  have hentries := h.entries
  rw [hb, List.flatten_append, List.flatten_cons] at hentries
  have hplaced := h.placed _ _ hget
  rw [HashMap.insert, hget, ← hlen]
  rw [← hlen] at hplaced
  simp only [Option.bind_eq_bind, Option.bind_some]
  cases hr : replaceValue map.equal_fn key value items
  case some items' =>
    refine ⟨true, _, rfl, setBucket_represents h hb ?_ (hs.replaceValue hentries (h.equal ▸ hr))⟩
    have ⟨before, k, v, after, hi, _, hi'⟩ := replaceValue_eq_some hr
    subst hi hi'
    intro item hmem
    simp only [List.mem_append, List.mem_cons] at hmem hplaced
    rcases hmem with hmem | hmem | hmem
    · exact hplaced item <| .inl hmem
    · rw [hmem]
      exact hplaced (k, v) <| .inr <| .inl rfl
    · exact hplaced item <| .inr <| .inr hmem
  case none        =>
    refine ⟨false, _, rfl, setBucket_represents h hb (fun item hmem => ?_) ?_⟩
    case refine_1 =>
      cases List.mem_cons.mp hmem
      case inl he   => rw [he, hlen, HashMap.getBucket, h.hash]
      case inr hmem => exact hplaced item hmem
    case refine_2 =>
      have hnot := hs.not_mem (replaceValue_eq_none (h.equal ▸ hr)) hnot
      exact (hentries.cons hnot value).perm List.perm_middle.symm

theorem hashMapRemove_spec (h : map.Represents hash_fn equal_fn m) (key : α) :
    ∃ map', map.remove key = some ((m ⟦key⟧).isSome, map') ∧
      map'.Represents hash_fn equal_fn ((MapCall.remove key).apply m) := by
  have ⟨pre, items, post, hb, hlen, hget, hnot⟩ := getBucket_spec hs h key
  have hentries := h.entries
  rw [hb, List.flatten_append, List.flatten_cons] at hentries
  have hplaced := h.placed _ _ hget
  rw [HashMap.remove, hget, ← hlen]
  rw [← hlen] at hplaced
  simp only [Option.bind_eq_bind, Option.bind_some]
  cases hr : removeItem map.equal_fn key items
  case some items' =>
    have ⟨hm, hnew⟩ := hs.removeItem hentries (h.equal ▸ hr)
    rw [Option.isSome_iff_ne_none.mpr hm]
    refine ⟨_, rfl, setBucket_represents h hb (fun item hmem => hplaced item ?_) hnew⟩
    have ⟨before, k, v, after, hi, _, hi'⟩ := removeItem_eq_some hr
    subst hi hi'
    simp only [List.mem_append, List.mem_cons] at hmem ⊢
    exact hmem.imp_right .inr
  case none        =>
    have hm := hentries.eq_none <| hs.not_mem (removeItem_eq_none (h.equal ▸ hr)) hnot
    rw [apply_remove_of_eq_none hm, hm]
    exact ⟨map, rfl, h⟩

theorem hashMapGet_spec (h : map.Represents hash_fn equal_fn m) (key : α) :
    ∃ item, map.get key = some item ∧ item.map Prod.snd = m ⟦key⟧ := by
  have ⟨pre, items, post, hb, hlen, hget, hnot⟩ := getBucket_spec hs h key
  have hentries := h.entries
  rw [hb, List.flatten_append, List.flatten_cons] at hentries
  rw [HashMap.get, hget]
  refine ⟨_, rfl, ?_⟩
  rw [h.equal]
  exact hs.findItem hentries hnot

end

omit hs in
theorem represents_new :
    (HashMap.new hash_fn equal_fn).Represents hash_fn equal_fn fun (_ : Quotient s) => (none : Option β) where
  hash    := rfl
  equal   := rfl
  entries := by
    rw [HashMap.new, List.flatten_replicate_nil]
    exact .nil
  placed  := fun b items hb => by
    have hitems := List.eq_of_mem_replicate <| List.mem_of_getElem? hb
    exact hitems ▸ nofun

-- The entries are put into the buckets one after the other.
theorem convertToHashMap_spec {map : ArrayMap α β} (h : map.Represents equal_fn m) :
    ∃ hash, Map.convertToHashMap hash_fn map = some hash ∧ hash.Represents hash_fn equal_fn m := by
  have hfold (items : List (MapKeyValue α β)) {hash : HashMap α β} {m' : Quotient s → Option β}
      (h' : hash.Represents hash_fn equal_fn m') :
      ∃ hash', items.foldlM (fun hash item => (hash.insert item.1 item.2).map Prod.snd) hash = some hash' ∧
        hash'.Represents hash_fn equal_fn
          (items.foldl (fun m item => (MapCall.insert item.1 item.2).apply m) m') := by
    induction items generalizing hash m'
    case nil                => exact ⟨hash, rfl, h'⟩
    case cons item items ih =>
      have ⟨present, hash₁, hinsert, h₁⟩ := hashMapInsert_spec hs h' item.1 item.2
      have ⟨hash', hrest, h'⟩ := ih h₁
      refine ⟨hash', ?_, h'⟩
      rw [List.foldlM_cons, hinsert]
      exact hrest
  have ⟨hash, hrun, hr⟩ := hfold map.values represents_new
  have he : map.values.foldl (fun m item => (MapCall.insert item.1 item.2).apply m) _ = m :=
    (show Entries.Represents ([] ++ map.values) m from h.entries).foldl .nil
  refine ⟨hash, ?_, he ▸ hr⟩
  rw [Map.convertToHashMap, h.equal]
  exact hrun

end

-- The map in either of its forms.
inductive Map.Represents (hash_fn : α → Nat → Nat) (equal_fn : α → α → Bool) (m : Quotient s → Option β) :
    Map α β → Prop
  | arraymap {map} : map.Represents equal_fn m → Represents hash_fn equal_fn m (.arraymap hash_fn map)
  | hashmap {map}  : map.Represents hash_fn equal_fn m → Represents hash_fn equal_fn m (.hashmap map)

namespace Map.Represents

variable {map : Map α β}

theorem insert (hs : HashesKeys s hash_fn equal_fn) (h : Represents hash_fn equal_fn m map) (key : α) (value : β) :
    ∃ map', map.insert key value = some map' ∧
      Represents hash_fn equal_fn ((MapCall.insert key value).apply m) map' := by
  cases h
  case hashmap map h  =>
    have ⟨_, map', hinsert, h'⟩ := hashMapInsert_spec hs h key value
    rw [Map.insert, hinsert]
    exact ⟨_, rfl, .hashmap h'⟩
  case arraymap map h =>
    rw [Map.insert]
    split
    case h_1 map' hinsert => exact ⟨_, rfl, .arraymap <| arrayMapInsert_spec hs h hinsert⟩
    case h_2              =>
      have ⟨hash, hconvert, hh⟩ := convertToHashMap_spec hs h
      have ⟨_, map', hinsert, h'⟩ := hashMapInsert_spec hs hh key value
      simp only [hconvert, hinsert, Option.bind_eq_bind, Option.bind_some]
      exact ⟨_, rfl, .hashmap h'⟩

theorem remove (hs : HashesKeys s hash_fn equal_fn) (h : Represents hash_fn equal_fn m map) (key : α) :
    ∃ map', map.remove key = some ((m ⟦key⟧).isSome, map') ∧
      Represents hash_fn equal_fn ((MapCall.remove key).apply m) map' := by
  cases h
  case hashmap map h  =>
    have ⟨map', hremove, h'⟩ := hashMapRemove_spec hs h key
    rw [Map.remove, hremove]
    exact ⟨_, rfl, .hashmap h'⟩
  case arraymap map h =>
    have ⟨hpresent, h'⟩ := arrayMapRemove_spec hs h key
    refine ⟨_, ?_, .arraymap h'⟩
    rw [Map.remove, ← hpresent]
    rfl

theorem clear (h : Represents hash_fn equal_fn m map) :
    Represents hash_fn equal_fn (MapCall.clear.apply m) map.clear := by
  cases h
  case hashmap map h  =>
    refine .hashmap ⟨h.hash, h.equal, ?_, fun b items hb => ?_⟩
    case refine_1 =>
      change Entries.Represents (map.buckets.map fun _ => []).flatten _
      rw [List.flatten_eq_nil_iff.mpr <| by simp]
      exact .nil
    case refine_2 =>
      have ⟨_, _, hitems⟩ := List.mem_map.mp <| List.mem_of_getElem? hb
      exact hitems ▸ nofun
  case arraymap map h => exact .arraymap ⟨h.equal, .nil⟩

theorem getRaw (hs : HashesKeys s hash_fn equal_fn) (h : Represents hash_fn equal_fn m map) (key : α) :
    ∃ item, map.getRaw key = some item ∧ item.map Prod.snd = m ⟦key⟧ := by
  cases h
  case hashmap map h  => exact hashMapGet_spec hs h key
  case arraymap map h => exact ⟨_, rfl, arrayMapGet_spec hs h key⟩

theorem step (hs : HashesKeys s hash_fn equal_fn) (h : Represents hash_fn equal_fn m map) (call : MapCall α β) :
    ∃ map', map.step call = some map' ∧ Represents hash_fn equal_fn (call.apply m) map' := by
  cases call
  case insert key value => exact insert hs h key value
  case clear            => exact ⟨_, rfl, clear h⟩
  case remove key       =>
    have ⟨map', hremove, h'⟩ := remove hs h key
    refine ⟨map', ?_, h'⟩
    rw [Map.step, hremove]
    rfl

end Map.Represents

theorem Map.Represents.remaining {map : Map α β} (h : Represents hash_fn equal_fn m map) :
    Entries.Represents map.iteratorInit.remaining m := by
  cases h
  case arraymap map h => exact h.entries
  case hashmap map h  =>
    have hentries := h.entries
    have hne : map.buckets ≠ [] := List.ne_nil_of_length_pos <| map.length.symm ▸ (by decide : 0 < HASHMAP_BUCKETS)
    rw [← List.cons_head_tail hne, List.flatten_cons, ← List.drop_one] at hentries
    exact hentries

-- What the calls find in the map is what there is in the finite map. The iterator gives each key once.
structure Map.Refines (map : Map α (Option β)) (m : Quotient s → Option (Option β)) : Prop where
  hasKey  : ∀ key, map.hasKey key = some (m ⟦key⟧).isSome
  get     : ∀ key, map.get key = some (m ⟦key⟧).join
  remove  : ∀ key, (map.remove key).map Prod.fst = some (m ⟦key⟧).isSome
  size    : map.size = {q | (m q).isSome}.ncard
  iterate : Entries.Represents (iterate map.iteratorInit) m

theorem Map.Represents.refines {map : Map α (Option β)} {m : Quotient s → Option (Option β)}
    (hs : HashesKeys s hash_fn equal_fn) (h : Represents hash_fn equal_fn m map) : map.Refines m where
  hasKey  := by
    intro key
    have ⟨item, hget, hitem⟩ := h.getRaw hs key
    rw [Map.hasKey, hget, ← hitem, Option.isSome_map]
    rfl
  get     := by
    intro key
    have ⟨item, hget, hitem⟩ := h.getRaw hs key
    rw [Map.get, hget, ← hitem]
    cases item <;> rfl
  remove  := by
    intro key
    have ⟨map', hremove, _⟩ := h.remove hs key
    rw [hremove]
    rfl
  size    := (size_eq map).trans h.remaining.ncard.symm
  iterate := iterate_eq map.iteratorInit ▸ h.remaining

-- After any calls the map is the finite map that they make, in whichever form it is.
theorem map_refines (hs : HashesKeys s hash_fn equal_fn) (calls : List (MapCall α (Option β))) :
    ∃ map, calls.foldlM Map.step (Map.new hash_fn equal_fn) = some map ∧
      map.Refines (calls.foldl MapCall.apply fun (_ : Quotient s) => none) := by
  have hrun {map : Map α (Option β)} {m : Quotient s → Option (Option β)} (h : map.Represents hash_fn equal_fn m) :
      ∃ map', calls.foldlM Map.step map = some map' ∧
        map'.Represents hash_fn equal_fn (calls.foldl MapCall.apply m) := by
    induction calls generalizing map m
    case nil                => exact ⟨map, rfl, h⟩
    case cons call calls ih =>
      have ⟨map₁, hstep, h₁⟩ := h.step hs call
      rw [List.foldlM_cons, hstep]
      exact ih h₁
  have hnew : (Map.new hash_fn equal_fn).Represents hash_fn equal_fn fun (_ : Quotient s) => (none : Option (Option β)) :=
    .arraymap ⟨rfl, .nil⟩
  have ⟨map, hfold, h⟩ := hrun hnew
  exact ⟨map, hfold, h.refines hs⟩

-- The fifteenth key makes a hash table of the array.
def fillingCalls : List (MapCall CString (Option Nat)) :=
  "abcdefghijklmno".toList.map (fun c => .insert [c] (some 1)) ++
    [.insert ['a'] (some 2), .insert ['b'] none, .remove ['c']]

-- The map of strings.
theorem stringMap_refines :
    ∃ map, fillingCalls.foldlM Map.step
        (Map.new (fun key max => (oatHash key (.ofNat max)).toNat) fun key key' => decide (key = key')) = some map ∧
      Map.Refines (s := ⊥) map (fillingCalls.foldl (MapCall.apply (s := ⊥)) fun _ => none) :=
  map_refines (s := ⊥) ⟨fun key key' => (decide_eq_true_iff : decide (key = key') = true ↔ key = key'),
    fun key => @oatHash_toNat_lt key 8192 (by decide),
    fun _ _ he => congrArg (fun key => (oatHash key _).toNat) <| of_decide_eq_true he⟩ _

end CfEngine.Libutils
