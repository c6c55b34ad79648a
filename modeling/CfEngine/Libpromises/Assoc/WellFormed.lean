import Mathlib.Data.Fintype.Card
import Mathlib.Data.List.Nodup
import CfEngine.Libpromises.Assoc

open Probing

namespace CfEngine

namespace Bucket

def key : Bucket → Option CString
  | assoc a => some a.lval
  | _       => none

@[simp]
theorem key_null : null.key = none :=
  rfl

@[simp]
theorem key_assoc {a : CfAssoc} : (assoc a).key = some a.lval :=
  rfl

theorem key_eq_some {b : Bucket} {k : CString} (h : b.key = some k) :
    ∃ a, b = assoc a ∧ a.lval = k := by
  cases b
  case assoc a => exact ⟨a, rfl, Option.some.inj h⟩
  all_goals contradiction

end Bucket

namespace Buckets

variable {buckets : Buckets} {i : Slot} {a : CfAssoc} {e : CString}

def keys (buckets : Buckets) : Slot → Option CString :=
  fun i => (buckets i).key

-- No operation ever stores the marker `HASH_ENTRY_DELETED`.
structure WellFormed (buckets : Buckets) : Prop where
  not_deleted (j : Slot) : buckets j ≠ .deleted
  probed : Probed bucketOf buckets.keys

theorem keys_update {b : Bucket} :
    keys (Function.update buckets i b) = Function.update buckets.keys i b.key := by
  ext1 j
  by_cases h : j = i
  case pos => simp [keys, h]
  case neg => simp [keys, h]

namespace WellFormed

theorem empty : WellFormed (fun _ => .null) where
  not_deleted _ := nofun
  probed        := Probed.empty _

variable (wf : buckets.WellFormed)
include wf

theorem null_or_assoc (i : Slot) : buckets i = .null ∨ ∃ a, buckets i = .assoc a := by
  cases h : buckets i
  case null    => exact .inl rfl
  case deleted => exact absurd h <| wf.not_deleted i
  case assoc a => exact .inr ⟨a, rfl⟩

theorem unique {j : Slot} {a' : CfAssoc} (h : buckets i = .assoc a) (h' : buckets j = .assoc a')
    (hk : a.lval = a'.lval) : i = j :=
  wf.probed.unique (k := a.lval) (by simp [keys, h]) (by simp [keys, h', hk])

-- Every bucket before the one that holds an association holds some other association.
theorem before {j : Slot} (h : buckets i = .assoc a)
    (hj : dist (bucketOf a.lval) j < dist (bucketOf a.lval) i) :
    ∃ a', buckets j = .assoc a' ∧ a'.lval ≠ a.lval := by
  have hk := wf.probed.reach (k := a.lval) (by simp [keys, h]) hj
  have ⟨k', hk'⟩ := Option.ne_none_iff_exists'.mp hk
  have ⟨a', ha', hl⟩ := Bucket.key_eq_some hk'
  refine ⟨a', ha', fun hc => ?_⟩
  have := wf.unique ha' h hc
  simp [this] at hj

theorem update (hf : ∀ j, dist (bucketOf a.lval) j < dist (bucketOf a.lval) i → buckets j ≠ .null)
    (ha : ∀ j a', buckets j = .assoc a' → a'.lval ≠ a.lval) :
    WellFormed (Function.update buckets i (.assoc a)) where
  not_deleted j := by
    by_cases h : j = i
    case pos => simp [h]
    case neg => simpa [h] using wf.not_deleted j
  probed := by
    rw [keys_update]
    refine wf.probed.insert (fun j hj => ?_) (fun j hj => ?_)
    · have ⟨a', h⟩ := wf.null_or_assoc j |>.resolve_left (hf j hj)
      simp [keys, h]
    · have ⟨a', h, hl⟩ := Bucket.key_eq_some hj
      exact ha j a' h hl

end WellFormed

section

variable {β : Type} {f : Slot → Option β} {r : β} (wf : buckets.WellFormed)
include wf

theorem walk_of_holds (h : buckets i = .assoc a) (hr : f i = some r)
    (hb : ∀ j a', buckets j = .assoc a' → a'.lval ≠ a.lval → f j = none) :
    walk f (bucketOf a.lval) = some r :=
  walk_eq_of_first hr fun j hj =>
    have ⟨a', h', hne⟩ := wf.before h hj
    hb j a' h' hne

-- A loop that looks for an absent element leaves at the first free bucket, if there is one.
theorem walk_of_absent (h : ∀ i a, buckets i = .assoc a → a.lval ≠ e)
    (hn : ∀ i, buckets i = .null → (f i).isSome)
    (hb : ∀ j a, buckets j = .assoc a → a.lval ≠ e → f j = none) :
    (∃ i, buckets i = .null ∧ walk f (bucketOf e) = f i ∧
      ∀ j, dist (bucketOf e) j < dist (bucketOf e) i → buckets j ≠ .null) ∨
    ((∀ i, buckets i ≠ .null) ∧ walk f (bucketOf e) = none) := by
  by_cases hx : ∃ i, buckets i = .null
  case pos =>
    have ⟨i, hi, hf⟩ := exists_first_of_exists (bucketOf e) hx
    have ⟨r, hr⟩ := Option.isSome_iff_exists.mp (hn i hi)
    refine .inl ⟨i, hi, ?_, hf⟩
    rw [hr]
    apply walk_eq_of_first hr
    intro j hj
    have ⟨a, ha⟩ := wf.null_or_assoc j |>.resolve_left (hf j hj)
    exact hb j a ha (h j a ha)
  case neg =>
    refine .inr ⟨fun i hi => hx ⟨i, hi⟩, walk_eq_none fun i => ?_⟩
    have ⟨a, ha⟩ := wf.null_or_assoc i |>.resolve_left (hx ⟨i, ·⟩)
    exact hb i a ha (h i a ha)

end

section

variable {r : Rval} {d : DataType} (wf : buckets.WellFormed)
include wf

theorem hugeHashLookupElement_of_holds (h : buckets i = .assoc a) :
    buckets.hugeHashLookupElement a.lval = some (i, a) := by
  have hw := walk_of_holds wf h (f := hugeHashLookupElement.body buckets a.lval)
    (by simp [hugeHashLookupElement.body, h]; rfl)
    (fun j a' h' hne => by simp [hugeHashLookupElement.body, h', hne.symm])
  simp [hugeHashLookupElement, hw]

theorem hugeHashLookupElement_of_absent (h : ∀ i a, buckets i = .assoc a → a.lval ≠ e) :
    buckets.hugeHashLookupElement e = none := by
  have hw := walk_of_absent wf h (f := hugeHashLookupElement.body buckets e)
    (fun i hi => by simp [hugeHashLookupElement.body, hi])
    (fun j a ha hne => by simp [hugeHashLookupElement.body, ha, hne.symm])
  cases hw
  case inl hw =>
    have ⟨i, hi, hw, _⟩ := hw
    simp [hugeHashLookupElement, hw, hugeHashLookupElement.body, hi]
  case inr hw =>
    simp [hugeHashLookupElement, hw]

theorem hugeHashInsertElement_of_holds (h : buckets i = .assoc a) :
    buckets.hugeHashInsertElement a.lval r d = (buckets, false) := by
  have hw := walk_of_holds wf h (f := hugeHashInsertElement.body buckets a.lval)
    (by simp [hugeHashInsertElement.body, h]; rfl)
    (fun j a' h' hne => by simp [hugeHashInsertElement.body, h', hne.symm])
  simp [hugeHashInsertElement, hw]

theorem hugeHashInsertElement_of_absent (h : ∀ i a, buckets i = .assoc a → a.lval ≠ e) :
    (∃ i, buckets i = .null ∧
      buckets.hugeHashInsertElement e r d =
        (Function.update buckets i (.assoc <| newAssoc e r d), true) ∧
      WellFormed (Function.update buckets i (.assoc <| newAssoc e r d))) ∨
    ((∀ i, buckets i ≠ .null) ∧ buckets.hugeHashInsertElement e r d = (buckets, false)) := by
  have hw := walk_of_absent wf h (f := hugeHashInsertElement.body buckets e)
    (fun i hi => by simp [hugeHashInsertElement.body, hi])
    (fun j a ha hne => by simp [hugeHashInsertElement.body, ha, hne.symm])
  cases hw
  case inl hw =>
    have ⟨i, hi, hw, hf⟩ := hw
    refine .inl ⟨i, hi, ?_, wf.update hf h⟩
    simp [hugeHashInsertElement, hw, hugeHashInsertElement.body, hi]
  case inr hw =>
    exact .inr ⟨hw.left, by simp [hugeHashInsertElement, hw]⟩

theorem hugeHashDeleteElement_of_holds (h : buckets i = .assoc a) :
    buckets.hugeHashDeleteElement a.lval = (Function.update buckets i .null, true) := by
  have hw := walk_of_holds wf h (f := hugeHashDeleteElement.body buckets a.lval)
    (by simp [hugeHashDeleteElement.body, h]; rfl)
    (fun j a' h' hne => by simp [hugeHashDeleteElement.body, h', hne.symm])
  simp [hugeHashDeleteElement, hw]

theorem hugeHashDeleteElement_of_absent (h : ∀ i a, buckets i = .assoc a → a.lval ≠ e) :
    buckets.hugeHashDeleteElement e = (buckets, false) := by
  have hw := walk_of_absent wf h (f := hugeHashDeleteElement.body buckets e)
    (fun i hi => by simp [hugeHashDeleteElement.body, hi])
    (fun j a ha hne => by simp [hugeHashDeleteElement.body, ha, hne.symm])
  cases hw
  case inl hw =>
    have ⟨i, hi, hw, _⟩ := hw
    simp [hugeHashDeleteElement, hw, hugeHashDeleteElement.body, hi]
  case inr hw =>
    simp [hugeHashDeleteElement, hw]

-- After a removal from a bucket that other associations were probed across, such an association is
-- out of reach.
theorem hugeHashLookupElement_of_crossed {j : Slot} {a' : CfAssoc} (h : buckets i = .assoc a)
    (h' : buckets j = .assoc a')
    (hc : dist (bucketOf a'.lval) i < dist (bucketOf a'.lval) j) :
    hugeHashLookupElement (Function.update buckets i .null) a'.lval = none := by
  have hw : walk (hugeHashLookupElement.body (Function.update buckets i .null) a'.lval)
      (bucketOf a'.lval) = some none :=
    walk_eq_of_first (i := i) (by simp [hugeHashLookupElement.body]) fun l hl => by
      have hli : l ≠ i := by rintro rfl; simp at hl
      have ⟨a'', h'', hne⟩ := wf.before h' (hl.trans hc)
      simp [hugeHashLookupElement.body, hli, h'', hne.symm]
  simp [hugeHashLookupElement, hw]

end

def Holds (buckets : Buckets) (a : CfAssoc) : Prop :=
  ∃ i, buckets i = .assoc a

variable {x : CfAssoc}

theorem holds_update_assoc (h : buckets i = .null) :
    Holds (Function.update buckets i (.assoc a)) x ↔ x = a ∨ buckets.Holds x := by
  constructor
  case mp =>
    intro ⟨j, hj⟩
    by_cases hji : j = i
    case pos => simp [hji] at hj; exact .inl hj.symm
    case neg => exact .inr ⟨j, by simpa [hji] using hj⟩
  case mpr =>
    intro hx
    cases hx
    case inl hx => exact ⟨i, by simp [hx]⟩
    case inr hx =>
      have ⟨j, hj⟩ := hx
      have hji : j ≠ i := by rintro rfl; simp [h] at hj
      exact ⟨j, by simpa [hji] using hj⟩

theorem holds_update_null (wf : buckets.WellFormed) (h : buckets i = .assoc a) :
    Holds (Function.update buckets i .null) x ↔ buckets.Holds x ∧ x.lval ≠ a.lval := by
  constructor
  case mp =>
    intro ⟨j, hj⟩
    have hji : j ≠ i := by rintro rfl; simp at hj
    rw [Function.update_of_ne hji] at hj
    exact ⟨⟨j, hj⟩, fun hk => hji <| wf.unique hj h hk⟩
  case mpr =>
    intro ⟨⟨j, hj⟩, hk⟩
    have hji : j ≠ i := by rintro rfl; simp_all
    exact ⟨j, by simpa [hji] using hj⟩

-- A table whose keys are all in `s` has a free bucket if `s` is smaller than the table.
theorem WellFormed.exists_null (wf : buckets.WellFormed) {s : Finset CString}
    (hk : ∀ a, buckets.Holds a → a.lval ∈ s) (hc : s.card < cfHashTableSize) :
    ∃ i, buckets i = .null := by
  by_contra hn
  have hs (i : Slot) : ∃ a, buckets i = .assoc a := wf.null_or_assoc i |>.resolve_left (hn ⟨i, ·⟩)
  choose f hf using hs
  have hle : (Finset.univ : Finset Slot).card ≤ s.card := by
    apply Finset.card_le_card_of_injOn fun i => (f i).lval
    · exact fun i _ => hk _ ⟨i, hf i⟩
    · exact fun i _ j _ h => wf.unique (hf i) (hf j) h
  simp only [Finset.card_univ, Fintype.card_fin] at hle
  omega

theorem WellFormed.erase (wf : buckets.WellFormed) (hc : ¬Crossed bucketOf buckets.keys i) :
    WellFormed (Function.update buckets i .null) where
  not_deleted j := by
    by_cases h : j = i
    case pos => simp [h]
    case neg => simpa [h] using wf.not_deleted j
  probed := by
    rw [keys_update]
    exact wf.probed.erase hc

theorem WellFormed.assign {a' : CfAssoc} (wf : buckets.WellFormed) (h : buckets i = .assoc a)
    (hk : a'.lval = a.lval) : WellFormed (Function.update buckets i (.assoc a')) where
  not_deleted j := by
    by_cases hj : j = i
    case pos => simp [hj]
    case neg => simpa [hj] using wf.not_deleted j
  probed := by
    have he : Function.update buckets.keys i (some a.lval) = buckets.keys := by
      simp [keys, h]
    rw [keys_update, Bucket.key_assoc, hk, he]
    exact wf.probed

theorem holds_update_of_holds {a' : CfAssoc} (wf : buckets.WellFormed) (h : buckets i = .assoc a) :
    Holds (Function.update buckets i (.assoc a')) x ↔ x = a' ∨ buckets.Holds x ∧ x.lval ≠ a.lval := by
  have hn : Function.update (Function.update buckets i .null) i (.assoc a') =
      Function.update buckets i (.assoc a') := Function.update_idem ..
  rw [←hn, holds_update_assoc (by simp), holds_update_null wf h]

theorem place_of_absent (wf : buckets.WellFormed) (h : ∀ a', buckets.Holds a' → a'.lval ≠ a.lval)
    (hn : ∃ i, buckets i = .null) :
    (buckets.place a).WellFormed ∧ ∀ x, (buckets.place a).Holds x ↔ x = a ∨ buckets.Holds x := by
  have ⟨i, hi, hf⟩ := exists_first_of_exists (bucketOf a.lval) hn
  have hw : walk (fun i => if buckets i = .null then some i else none) (bucketOf a.lval) = some i :=
    walk_eq_of_first (i := i) (by simp [hi]) fun j hj => by simp [hf j hj]
  simp only [place, hw]
  exact ⟨wf.update hf fun j a' hj => h a' ⟨j, hj⟩, fun x => holds_update_assoc hi⟩

end Buckets

namespace AssocArray

variable {array : AssocArray} {a : CfAssoc} {e : CString}

theorem foldl_place {l : List CfAssoc} {buckets : Buckets} {s : Finset CString}
    (wf : buckets.WellFormed) (hk : ∀ a, buckets.Holds a → a.lval ∈ s)
    (hd : (l.map CfAssoc.lval).Nodup) (hn : ∀ a ∈ l, a.lval ∉ s)
    (hc : s.card + l.length < cfHashTableSize) :
    Buckets.WellFormed (l.foldl Buckets.place buckets) ∧
      ∀ x, Buckets.Holds (l.foldl Buckets.place buckets) x ↔ x ∈ l ∨ buckets.Holds x := by
  induction l generalizing buckets s
  case nil => simp [wf]
  case cons a l ih =>
    simp only [List.map_cons, List.nodup_cons, List.mem_map, not_exists, not_and] at hd
    simp only [List.length_cons] at hc
    have hf (a' : CfAssoc) (h : buckets.Holds a') : a'.lval ≠ a.lval := fun he =>
      hn a (List.mem_cons_self ..) (he ▸ hk a' h)
    have ⟨wf', hp⟩ := Buckets.place_of_absent wf hf (wf.exists_null hk (by omega))
    have hks : (insert a.lval s).card ≤ s.card + 1 := Finset.card_insert_le ..
    have ⟨wf'', hl⟩ := ih (s := insert a.lval s) wf'
      (fun x hx => by
        cases (hp x).mp hx
        case inl h => simp [h]
        case inr h => simp [hk x h])
      hd.right
      (fun x hx => by
        simp only [Finset.mem_insert, not_or]
        exact ⟨hd.left x hx, hn x (List.mem_cons_of_mem _ hx)⟩)
      (by omega)
    refine ⟨wf'', fun x => ?_⟩
    simp [hl, hp, or_assoc, or_left_comm]

theorem hashConvertToHuge_spec (h : (array.values.map CfAssoc.lval).Nodup) :
    array.hashConvertToHuge.WellFormed ∧
      ∀ x, array.hashConvertToHuge.Holds x ↔ x ∈ array.values := by
  have hs := array.size_le
  have hl : array.values.length < cfHashTableSize := Nat.lt_of_le_of_lt hs (by decide)
  have ⟨wf, hp⟩ := foldl_place (s := ∅) Buckets.WellFormed.empty (fun _ ⟨_, h⟩ => nomatch h) h
    (by simp) (by simpa using hl)
  refine ⟨wf, fun x => (hp x).trans <| or_iff_left ?_⟩
  exact fun ⟨_, h⟩ => nomatch h

theorem hashConvertToHuge_exists_null (h : (array.values.map CfAssoc.lval).Nodup) :
    ∃ i, array.hashConvertToHuge i = .null := by
  have ⟨wf, hp⟩ := hashConvertToHuge_spec h
  apply wf.exists_null (s := (array.values.map CfAssoc.lval).toFinset)
  · intro a ha
    have := (hp a).mp ha
    simp only [List.mem_toFinset, List.mem_map]
    exact ⟨a, this, rfl⟩
  · rw [List.toFinset_card_of_nodup h, List.length_map]
    exact Nat.lt_of_le_of_lt array.size_le (by decide)

theorem findIdx?_split (h : (array.values.map CfAssoc.lval).Nodup) (ha : a ∈ array.values) :
    ∃ i l l', array.values.findIdx? (·.lval = a.lval) = some i ∧ array.values = l ++ a :: l' ∧
      array.values.eraseIdx i = l ++ l' ∧ ∀ f, array.values.modify i f = l ++ f a :: l' := by
  have ⟨i, hi⟩ : ∃ i, array.values.findIdx? (·.lval = a.lval) = some i :=
    Option.isSome_iff_exists.mp <| by simpa using ⟨a, ha, rfl⟩
  have ⟨hl, hp, _⟩ := List.findIdx?_eq_some_iff_getElem.mp hi
  have he : array.values[i] = a :=
    List.inj_on_of_nodup_map h (List.getElem_mem hl) ha (by simpa using hp)
  refine ⟨i, array.values.take i, array.values.drop (i + 1), hi, ?_, ?_, fun f => ?_⟩
  · rw [←he, List.getElem_cons_drop, List.take_append_drop]
  · exact List.eraseIdx_eq_take_drop_succ ..
  · rw [List.modify_eq_take_cons_drop hl, he]

end AssocArray

namespace AssocHashTable

variable {t : AssocHashTable} {a x : CfAssoc} {e : CString} {r : Rval} {d : DataType}

def Holds (t : AssocHashTable) (a : CfAssoc) : Prop :=
  match t with
  | tiny array   => a ∈ array.values
  | huge buckets => buckets.Holds a

def WellFormed (t : AssocHashTable) : Prop :=
  match t with
  | tiny array   => (array.values.map CfAssoc.lval).Nodup
  | huge buckets => buckets.WellFormed

-- A removal of `e` frees a bucket on the path from the home bucket of some other association to the
-- bucket that holds this association.
def CutsProbe (t : AssocHashTable) (e : CString) : Prop :=
  match t with
  | tiny _       => False
  | huge buckets => ∃ i a, buckets i = .assoc a ∧ a.lval = e ∧ ∃ j a', buckets j = .assoc a' ∧
      dist (bucketOf a'.lval) i < dist (bucketOf a'.lval) j

def Full (t : AssocHashTable) : Prop :=
  match t with
  | tiny _       => False
  | huge buckets => ∀ i, buckets i ≠ .null

theorem holds_of_hashLookupElement (h : hashLookupElement t e = some a) : t.Holds a := by
  cases t
  case tiny array => exact List.mem_of_find?_eq_some h
  case huge buckets =>
    have ⟨⟨i, a'⟩, hl, ha⟩ := Option.map_eq_some_iff.mp h
    have ⟨j, hj⟩ := exists_of_walk_eq_some <| Option.join_eq_some_iff.mp hl
    refine ⟨j, ?_⟩
    simp only [Buckets.hugeHashLookupElement.body] at hj
    split at hj
    case h_1 => simp at hj
    case h_2 => simp at hj
    case h_3 a'' hb =>
      split at hj
      case isTrue  => simp_all
      case isFalse => simp at hj

theorem hashInit_wellFormed : hashInit.WellFormed :=
  List.nodup_nil

theorem not_hashInit_holds : ¬hashInit.Holds a :=
  List.not_mem_nil

theorem WellFormed.unique (wf : t.WellFormed) (h : t.Holds a) (h' : t.Holds x)
    (hk : a.lval = x.lval) : a = x := by
  cases t
  case tiny => exact List.inj_on_of_nodup_map wf h h' hk
  case huge =>
    have ⟨i, hi⟩ := h
    have ⟨j, hj⟩ := h'
    have := wf.unique hi hj hk
    simp_all

section

variable (wf : t.WellFormed)
include wf

theorem hashLookupElement_of_holds (h : t.Holds a) : hashLookupElement t a.lval = some a := by
  cases t
  case huge =>
    have ⟨i, hi⟩ := h
    simp [hashLookupElement, Buckets.hugeHashLookupElement_of_holds wf hi]
  case tiny array =>
    have ⟨b, hb⟩ : ∃ b, array.tinyHashLookupElement a.lval = some b :=
      Option.isSome_iff_exists.mp <| List.find?_isSome.mpr ⟨a, h, by simp⟩
    have hm : b ∈ array.values := List.mem_of_find?_eq_some hb
    have hl : b.lval = a.lval := by simpa using List.find?_some hb
    rw [WellFormed.unique wf h hm hl.symm]
    simp [hashLookupElement, hl ▸ hb]

theorem hashLookupElement_of_absent (h : ∀ a, t.Holds a → a.lval ≠ e) :
    hashLookupElement t e = none := by
  cases t
  case huge =>
    simp [hashLookupElement, Buckets.hugeHashLookupElement_of_absent wf fun i a hi => h a ⟨i, hi⟩]
  case tiny =>
    simp only [Holds] at h
    simpa [hashLookupElement, AssocArray.tinyHashLookupElement] using h

theorem hashInsertElement_of_holds (h : t.Holds a) :
    ∃ t', hashInsertElement t a.lval r d = (t', false) ∧ t'.WellFormed ∧
      ∀ x, t'.Holds x ↔ t.Holds x := by
  cases t
  case huge buckets =>
    have ⟨i, hi⟩ := h
    refine ⟨huge buckets, ?_, wf, fun _ => .rfl⟩
    simp [hashInsertElement, Buckets.hugeHashInsertElement_of_holds wf hi]
  case tiny array =>
    by_cases hs : array.values.length = tinyLimit
    case pos =>
      have ⟨wf', hc⟩ := AssocArray.hashConvertToHuge_spec wf
      have ⟨i, hi⟩ := (hc a).mpr h
      refine ⟨huge array.hashConvertToHuge, ?_, wf', hc⟩
      simp [hashInsertElement, AssocArray.tinyHashInsertElement, hs,
        Buckets.hugeHashInsertElement_of_holds wf' hi]
    case neg =>
      have ha : array.values.any (·.lval = a.lval) := List.any_eq_true.mpr ⟨a, h, by simp⟩
      refine ⟨tiny array, ?_, wf, fun _ => .rfl⟩
      simp only [hashInsertElement, AssocArray.tinyHashInsertElement, hs, dite_false, ha, if_true]

theorem hashInsertElement_of_absent (h : ∀ a, t.Holds a → a.lval ≠ e) :
    (∃ t', hashInsertElement t e r d = (t', true) ∧ t'.WellFormed ∧
      ∀ x, t'.Holds x ↔ x = newAssoc e r d ∨ t.Holds x) ∨
    t.Full ∧ hashInsertElement t e r d = (t, false) := by
  cases t
  case huge buckets =>
    cases Buckets.hugeHashInsertElement_of_absent wf (r := r) (d := d) fun i a hi => h a ⟨i, hi⟩
    case inl hi =>
      have ⟨i, hi, he, wf'⟩ := hi
      refine .inl ⟨huge _, ?_, wf', fun x => Buckets.holds_update_assoc hi⟩
      rw [hashInsertElement, he]
    case inr hi => exact .inr ⟨hi.left, by simp [hashInsertElement, hi.right]⟩
  case tiny array =>
    simp only [Holds] at h
    refine .inl ?_
    by_cases hs : array.values.length = tinyLimit
    case pos =>
      have ⟨wf', hc⟩ := AssocArray.hashConvertToHuge_spec wf
      have ⟨i, hi⟩ := AssocArray.hashConvertToHuge_exists_null wf
      cases Buckets.hugeHashInsertElement_of_absent wf' (r := r) (d := d) (e := e)
        fun i a hi => h a <| (hc a).mp ⟨i, hi⟩
      case inl hi =>
        have ⟨i, hi, he, wf'⟩ := hi
        refine ⟨huge _, ?_, wf', fun x => (Buckets.holds_update_assoc hi).trans ?_⟩
        · rw [hashInsertElement, AssocArray.tinyHashInsertElement, dif_pos hs, he]
        · exact or_congr_right (hc x)
      case inr hn => exact absurd hi (hn.left i)
    case neg =>
      have ha : ¬array.values.any (·.lval = e) := by simpa using h
      refine ⟨tiny ⟨array.values ++ [newAssoc e r d], ?_⟩, ?_, ?_, fun x => ?_⟩
      · have := array.size_le
        simp
        omega
      · rw [hashInsertElement, AssocArray.tinyHashInsertElement, dif_neg hs, if_neg ha]
      · simp only [WellFormed, List.map_append, List.map_cons, List.map_nil, newAssoc]
        exact List.nodup_append.mpr ⟨wf, by simp, by simpa using h⟩
      · simp [Holds, or_comm]

theorem hashDeleteElement_of_absent (h : ∀ a, t.Holds a → a.lval ≠ e) :
    hashDeleteElement t e = (t, false) := by
  cases t
  case huge =>
    simp [hashDeleteElement, Buckets.hugeHashDeleteElement_of_absent wf fun i a hi => h a ⟨i, hi⟩]
  case tiny array =>
    simp only [Holds] at h
    have hf : array.values.findIdx? (·.lval = e) = none := by simpa using h
    simp [hashDeleteElement, AssocArray.tinyHashDeleteElement, hf]

theorem hashDeleteElement_of_holds (h : t.Holds a) : (hashDeleteElement t a.lval).2 = true := by
  cases t
  case huge =>
    have ⟨i, hi⟩ := h
    simp [hashDeleteElement, Buckets.hugeHashDeleteElement_of_holds wf hi]
  case tiny array =>
    have ⟨i, _, _, hi, _⟩ := AssocArray.findIdx?_split wf h
    simp [hashDeleteElement, AssocArray.tinyHashDeleteElement, hi]

theorem hashDeleteElement_holds (h : t.Holds a) :
    (hashDeleteElement t a.lval).1.Holds x ↔ t.Holds x ∧ x.lval ≠ a.lval := by
  cases t
  case huge =>
    have ⟨i, hi⟩ := h
    simp only [hashDeleteElement, Buckets.hugeHashDeleteElement_of_holds wf hi]
    exact Buckets.holds_update_null wf hi
  case tiny array =>
    have ⟨i, l, l', hi, hv, he, _⟩ := AssocArray.findIdx?_split wf h
    have hn : (l ++ a :: l').map CfAssoc.lval |>.Nodup := hv ▸ wf
    simp only [Holds, hashDeleteElement, AssocArray.tinyHashDeleteElement, hi, he]
    rw [hv]
    simp only [List.map_append, List.map_cons, List.nodup_append, List.nodup_cons, List.mem_map,
      List.mem_cons, List.mem_append] at hn ⊢
    grind

theorem hashDeleteElement_wellFormed (h : t.Holds a) (hc : ¬t.CutsProbe a.lval) :
    (hashDeleteElement t a.lval).1.WellFormed := by
  cases t
  case huge =>
    have ⟨i, hi⟩ := h
    simp only [hashDeleteElement, Buckets.hugeHashDeleteElement_of_holds wf hi]
    refine Buckets.WellFormed.erase wf fun ⟨j, k, hj, hd⟩ => hc ?_
    have ⟨a', ha', hk⟩ := Bucket.key_eq_some hj
    exact ⟨i, a, hi, rfl, j, a', ha', hk ▸ hd⟩
  case tiny array =>
    have ⟨i, l, l', hi, hv, he, _⟩ := AssocArray.findIdx?_split wf h
    have hn : (l ++ a :: l').map CfAssoc.lval |>.Nodup := hv ▸ wf
    simp only [WellFormed, hashDeleteElement, AssocArray.tinyHashDeleteElement, hi, he]
    exact hn.sublist <| List.Sublist.map _ <| by simp

theorem hashAssignElement_spec (h : t.Holds a) :
    (hashAssignElement t a.lval r d).WellFormed ∧
      ∀ x, (hashAssignElement t a.lval r d).Holds x ↔
        x = newAssoc a.lval r d ∨ t.Holds x ∧ x.lval ≠ a.lval := by
  cases t
  case huge buckets =>
    have ⟨i, hi⟩ := h
    simp only [hashAssignElement, Buckets.hugeHashLookupElement_of_holds wf hi]
    refine ⟨Buckets.WellFormed.assign wf hi rfl, fun x => ?_⟩
    exact Buckets.holds_update_of_holds wf hi
  case tiny array =>
    have ⟨i, l, l', hi, hv, _, hm⟩ := AssocArray.findIdx?_split wf h
    have hn : (l ++ a :: l').map CfAssoc.lval |>.Nodup := hv ▸ wf
    constructor
    · simpa [WellFormed, hashAssignElement, hi, hm] using hn
    · intro x
      simp only [Holds, hashAssignElement, hi, hm]
      rw [hv]
      simp only [List.map_append, List.map_cons, List.nodup_append, List.nodup_cons, List.mem_map,
        List.mem_cons, List.mem_append, newAssoc] at hn ⊢
      grind

theorem hashLookupElement_eq_some_iff : hashLookupElement t e = some a ↔ t.Holds a ∧ a.lval = e := by
  constructor
  case mp =>
    intro h
    by_cases hx : ∃ x, t.Holds x ∧ x.lval = e
    case pos =>
      have ⟨x, ht, hl⟩ := hx
      have he := hashLookupElement_of_holds wf ht
      rw [hl, h, Option.some.injEq] at he
      exact he ▸ ⟨ht, hl⟩
    case neg =>
      rw [hashLookupElement_of_absent wf fun a ha hl => hx ⟨a, ha, hl⟩] at h
      contradiction
  case mpr =>
    rintro ⟨h, rfl⟩
    exact hashLookupElement_of_holds wf h

theorem hashLookupElement_eq_none_iff : hashLookupElement t e = none ↔ ∀ a, t.Holds a → a.lval ≠ e := by
  refine ⟨fun h a ha hl => ?_, hashLookupElement_of_absent wf⟩
  rw [hashLookupElement_eq_some_iff wf |>.mpr ⟨ha, hl⟩] at h
  contradiction

end
end AssocHashTable

namespace Buckets

variable {buckets : Buckets} {k p : Nat} {a : CfAssoc}

theorem hugeHashIteratorNext_cases (hk : cfHashTableSize ≤ p + k) :
    (∃ (i : Slot) (a : CfAssoc), p ≤ i ∧ buckets i = .assoc a ∧
      (∀ j : Slot, p ≤ j → j < i → ∀ a', buckets j ≠ .assoc a') ∧
      buckets.hugeHashIteratorNext k p = (some a, i.val + 1)) ∨
    (∀ j : Slot, p ≤ j → ∀ a', buckets j ≠ .assoc a') ∧
      (buckets.hugeHashIteratorNext k p).1 = none := by
  induction k generalizing p
  case zero =>
    refine .inr ⟨fun j hj => ?_, rfl⟩
    have := j.isLt
    omega
  case succ k ih =>
    by_cases hp : p < cfHashTableSize
    case neg =>
      refine .inr ⟨fun j hj => ?_, by simp [hugeHashIteratorNext, hp]⟩
      have := j.isLt
      omega
    case pos =>
      by_cases ha : ∃ a, buckets ⟨p, hp⟩ = .assoc a
      case pos =>
        have ⟨a, ha⟩ := ha
        refine .inl ⟨⟨p, hp⟩, a, le_rfl, ha, fun j h₁ h₂ => ?_, ?_⟩
        · exact absurd h₂ <| by simpa [Fin.lt_def] using h₁
        · simp [hugeHashIteratorNext, hp, ha]
      case neg =>
        have hs : buckets.hugeHashIteratorNext (k + 1) p =
            buckets.hugeHashIteratorNext k (p + 1) := by
          simp only [hugeHashIteratorNext, hp, dite_true]
          split
          case h_1 a h => exact absurd ⟨a, h⟩ ha
          case h_2     => rfl
        have hn (j : Slot) (hj : p ≤ j) (hl : ¬p + 1 ≤ j) (a' : CfAssoc) :
            buckets j ≠ .assoc a' := fun hc => by
          have : j = ⟨p, hp⟩ := Fin.ext (by simp; omega)
          exact ha ⟨a', this ▸ hc⟩
        rw [hs]
        cases ih (p := p + 1) (by omega)
        case inl h =>
          have ⟨i, a, hi, ha', hb, he⟩ := h
          refine .inl ⟨i, a, by omega, ha', fun j h₁ h₂ => ?_, he⟩
          by_cases hl : p + 1 ≤ j
          case pos => exact hb j hl h₂
          case neg => exact hn j h₁ hl
        case inr h =>
          refine .inr ⟨fun j h₁ => ?_, h.right⟩
          by_cases hl : p + 1 ≤ j
          case pos => exact h.left j hl
          case neg => exact hn j h₁ hl

theorem hashIterate.go_spec (wf : buckets.WellFormed) (hk : cfHashTableSize < p + k) :
    ((hashIterate.go k ⟨.huge buckets, p⟩).map CfAssoc.lval).Nodup ∧
      ∀ a, a ∈ hashIterate.go k ⟨.huge buckets, p⟩ ↔ ∃ i : Slot, p ≤ i ∧ buckets i = .assoc a := by
  induction k generalizing p
  case zero =>
    refine ⟨List.nodup_nil, fun a => iff_of_false List.not_mem_nil fun ⟨i, hi, _⟩ => ?_⟩
    have := i.isLt
    omega
  case succ k ih =>
    cases buckets.hugeHashIteratorNext_cases (k := cfHashTableSize) (p := p) (by omega)
    case inl h =>
      have ⟨i, a, hi, ha, hb, he⟩ := h
      have hg : hashIterate.go (k + 1) ⟨.huge buckets, p⟩ =
          a :: hashIterate.go k ⟨.huge buckets, i.val + 1⟩ := by
        simp [hashIterate.go, hashIteratorNext, he]
      have ⟨hd, hm⟩ := ih (p := i.val + 1) (by omega)
      rw [hg]
      constructor
      · simp only [List.map_cons, List.nodup_cons, List.mem_map, not_exists, not_and]
        refine ⟨fun x hx hk => ?_, hd⟩
        have ⟨j, hj, hxj⟩ := (hm x).mp hx
        rw [wf.unique hxj ha hk] at hj
        omega
      · intro x
        simp only [List.mem_cons, hm]
        constructor
        case mp =>
          intro hx
          cases hx
          case inl hx => exact ⟨i, hi, hx ▸ ha⟩
          case inr hx =>
            have ⟨j, hj, hx⟩ := hx
            exact ⟨j, by omega, hx⟩
        case mpr =>
          intro ⟨j, hj, hx⟩
          rcases lt_trichotomy j i with hl | hl | hl
          · exact absurd hx <| hb j hj hl x
          · exact .inl <| Bucket.assoc.inj <| hx.symm.trans (hl ▸ ha)
          · exact .inr ⟨j, hl, hx⟩
    case inr h =>
      have hg : hashIterate.go (k + 1) ⟨.huge buckets, p⟩ = [] := by
        have ⟨o, q, he⟩ : ∃ o q, buckets.hugeHashIteratorNext cfHashTableSize p = (o, q) :=
          ⟨_, _, rfl⟩
        have : o = none := by simpa [he] using h.right
        simp [hashIterate.go, hashIteratorNext, he, this]
      rw [hg]
      refine ⟨List.nodup_nil, fun a => iff_of_false List.not_mem_nil fun ⟨i, hi, ha⟩ => ?_⟩
      exact h.left i hi a ha

end Buckets

theorem AssocArray.hashIterate.go_eq {array : AssocArray} {k p : Nat}
    (hk : array.values.length < p + k) :
    hashIterate.go k ⟨.tiny array, p⟩ = array.values.drop p := by
  induction k generalizing p
  case zero => simp [hashIterate.go, List.drop_eq_nil_of_le (by omega : array.values.length ≤ p)]
  case succ k ih =>
    by_cases hp : p < array.values.length
    case pos =>
      simp only [hashIterate.go, hashIteratorNext, tinyHashIteratorNext, hp, dite_true]
      rw [ih (by omega), List.drop_eq_getElem_cons hp]
    case neg =>
      simp only [hashIterate.go, hashIteratorNext, tinyHashIteratorNext, hp, dite_false]
      rw [List.drop_eq_nil_of_le (by omega)]

namespace AssocHashTable

variable {t : AssocHashTable} (wf : t.WellFormed)
include wf

theorem hashIterate_nodup : ((hashIterate t).map CfAssoc.lval).Nodup := by
  cases t
  case huge => exact Buckets.hashIterate.go_spec wf (by omega) |>.left
  case tiny array =>
    have := array.size_le
    rw [hashIterate, hashIteratorInit, AssocArray.hashIterate.go_eq]
    · exact wf
    · exact Nat.lt_of_le_of_lt this (by decide)

theorem mem_hashIterate_iff {a : CfAssoc} : a ∈ hashIterate t ↔ t.Holds a := by
  cases t
  case huge =>
    refine (Buckets.hashIterate.go_spec wf (by omega) |>.right a).trans ?_
    simp [Holds, Buckets.Holds]
  case tiny array =>
    have := array.size_le
    rw [hashIterate, hashIteratorInit, AssocArray.hashIterate.go_eq]
    · rfl
    · exact Nat.lt_of_le_of_lt this (by decide)

end AssocHashTable
end CfEngine
