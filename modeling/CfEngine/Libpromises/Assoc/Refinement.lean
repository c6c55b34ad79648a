import Mathlib.Data.Finmap
import CfEngine.Library.Run
import CfEngine.Libpromises.Assoc.WellFormed

open Run

namespace CfEngine

-- What an `AssocHashTable` stands for: a finite map from strings to values with their types.
abbrev VarMap := Finmap fun _ : CString => Rval × DataType

def CfAssoc.value (a : CfAssoc) : Rval × DataType :=
  (a.rval, a.dtype)

inductive HashOp
  | insert (element : CString) (rval : Rval) (dtype : DataType)
  | delete (element : CString)
  | lookup (element : CString)

namespace HashOp

def step (t : AssocHashTable) : HashOp → AssocHashTable
  | insert element rval dtype => (hashInsertElement t element rval dtype).1
  | delete element            => (hashDeleteElement t element).1
  | lookup _                  => t

def spec (m : VarMap) : HashOp → VarMap
  | insert element rval dtype => if element ∈ m then m else Finmap.insert element (rval, dtype) m
  | delete element            => m.erase element
  | lookup _                  => m

def both (s : AssocHashTable × VarMap) (op : HashOp) : AssocHashTable × VarMap :=
  (op.step s.1, op.spec s.2)

-- The operation removes an element from the open-addressing table, and the bucket it frees lies
-- between the home bucket of some other association and the bucket that holds this association.
def Severs (t : AssocHashTable) : HashOp → Prop
  | delete element => t.CutsProbe element
  | _              => False

end HashOp

-- Every observation of the table is the observation of the map.
structure AssocHashTable.Agrees (t : AssocHashTable) (m : VarMap) : Prop where
  insert  : ∀ e r d, (hashInsertElement t e r d).2 = decide (e ∉ m)
  delete  : ∀ e, (hashDeleteElement t e).2 = decide (e ∈ m)
  lookup  : ∀ e, hashLookupElement t e = (m.lookup e).map fun v => newAssoc e v.1 v.2
  nodup   : ((hashIterate t).map CfAssoc.lval).Nodup
  iterate : ∀ a, a ∈ hashIterate t ↔ m.lookup a.lval = some a.value

-- The table is well-formed and holds the entries of the map.
structure AssocHashTable.Represents (t : AssocHashTable) (m : VarMap) : Prop where
  wf    : t.WellFormed
  holds : ∀ a, t.Holds a ↔ m.lookup a.lval = some a.value

-- The run of the operations on a table that is created by `HashInit` is a run on the empty map, and
-- the two are in agreement before and after each operation.
def RefinesMap (ops : List HashOp) : Prop :=
  Always (fun s => s.1.Agrees s.2) HashOp.both (hashInit, ∅) ops

-- The map holds fewer than `CF_HASHTABLESIZE` keys at all times.
def StaysBelowCapacity (ops : List HashOp) : Prop :=
  Always (fun s => s.2.keys.card < cfHashTableSize) HashOp.both (hashInit, ∅) ops

namespace AssocHashTable.Represents

variable {t : AssocHashTable} {m : VarMap} {e : CString} {a : CfAssoc} {r : Rval} {d : DataType}

theorem init : hashInit.Represents ∅ where
  wf      := hashInit_wellFormed
  holds _ := iff_of_false not_hashInit_holds (by simp)

variable (h : t.Represents m)
include h

theorem holds_of_lookup {v : Rval × DataType} (hl : m.lookup e = some v) :
    t.Holds (newAssoc e v.1 v.2) :=
  h.holds _ |>.mpr hl

theorem holds_of_mem (hm : e ∈ m) : ∃ a, t.Holds a ∧ a.lval = e := by
  have ⟨v, hv⟩ := Finmap.mem_iff.mp hm
  exact ⟨_, h.holds_of_lookup hv, rfl⟩

theorem mem_of_holds (ha : t.Holds a) : a.lval ∈ m :=
  Finmap.mem_of_lookup_eq_some <| h.holds a |>.mp ha

theorem absent_of_not_mem (hm : e ∉ m) : ∀ a, t.Holds a → a.lval ≠ e := by
  rintro a ha rfl
  exact hm <| h.mem_of_holds ha

theorem not_full (hc : m.keys.card < cfHashTableSize) : ¬t.Full := by
  cases t
  case tiny => exact id
  case huge =>
    intro hf
    have ⟨i, hi⟩ := Buckets.WellFormed.exists_null h.wf (s := m.keys)
      (fun a ha => Finmap.mem_keys.mpr <| h.mem_of_holds (a := a) ha) hc
    exact hf i hi

theorem lookup (e : CString) :
    hashLookupElement t e = (m.lookup e).map fun v => newAssoc e v.1 v.2 := by
  cases hl : m.lookup e
  case none =>
    have hm : e ∉ m := Finmap.lookup_eq_none.mp hl
    exact hashLookupElement_of_absent h.wf <| h.absent_of_not_mem hm
  case some v =>
    exact hashLookupElement_of_holds (a := newAssoc e v.1 v.2) h.wf <| h.holds_of_lookup hl

theorem insert_of_mem (hm : e ∈ m) :
    ∃ t', hashInsertElement t e r d = (t', false) ∧ t'.Represents m := by
  have ⟨a, ha, hl⟩ := h.holds_of_mem hm
  have ⟨t', he, wf', hh⟩ := hashInsertElement_of_holds h.wf (r := r) (d := d) ha
  exact ⟨t', hl ▸ he, wf', fun x => (hh x).trans (h.holds x)⟩

theorem insert_of_not_mem (hm : e ∉ m) (hf : ¬t.Full) :
    ∃ t', hashInsertElement t e r d = (t', true) ∧ t'.Represents (m.insert e (r, d)) := by
  have ⟨t', he, wf', hh⟩ := hashInsertElement_of_absent h.wf (r := r) (d := d)
    (h.absent_of_not_mem hm) |>.resolve_right (hf ·.left)
  refine ⟨t', he, wf', fun x => ?_⟩
  rw [hh, h.holds]
  by_cases hx : x.lval = e
  case pos =>
    subst hx
    have hn : m.lookup x.lval = none := Finmap.lookup_eq_none.mpr hm
    simp only [hn, reduceCtorEq, or_false, Finmap.lookup_insert, Option.some.injEq]
    cases x
    simp [newAssoc, CfAssoc.value, eq_comm]
  case neg =>
    have hn : x ≠ newAssoc e r d := by rintro rfl; exact hx rfl
    simp [hn, Finmap.lookup_insert_of_ne _ hx]

theorem delete_of_not_mem (hm : e ∉ m) : hashDeleteElement t e = (t, false) :=
  hashDeleteElement_of_absent h.wf <| h.absent_of_not_mem hm

theorem delete_of_mem (hm : e ∈ m) : (hashDeleteElement t e).2 = true := by
  have ⟨_, ha, hl⟩ := h.holds_of_mem hm
  exact hl ▸ hashDeleteElement_of_holds h.wf ha

theorem delete (hc : ¬t.CutsProbe e) : (hashDeleteElement t e).1.Represents (m.erase e) := by
  by_cases hm : e ∈ m
  case pos =>
    have ⟨a, ha, hl⟩ := h.holds_of_mem hm
    subst hl
    refine ⟨hashDeleteElement_wellFormed h.wf ha hc, fun x => ?_⟩
    rw [hashDeleteElement_holds h.wf ha, h.holds]
    by_cases hx : x.lval = a.lval
    case pos => simp [←hx, Finmap.lookup_erase]
    case neg => simp [hx, Finmap.lookup_erase_ne hx]
  case neg =>
    rw [h.delete_of_not_mem hm]
    refine ⟨h.wf, fun x => ?_⟩
    by_cases hx : x.lval = e
    case pos =>
      subst hx
      simp [h.holds, Finmap.lookup_erase, Finmap.lookup_eq_none.mpr hm]
    case neg => rw [h.holds, Finmap.lookup_erase_ne hx]

theorem agrees (hc : m.keys.card < cfHashTableSize) : t.Agrees m where
  insert e r d := by
    by_cases hm : e ∈ m
    case pos =>
      have ⟨t', he, _⟩ := h.insert_of_mem (r := r) (d := d) hm
      simp [he, hm]
    case neg =>
      have ⟨t', he, _⟩ := h.insert_of_not_mem (r := r) (d := d) hm (h.not_full hc)
      simp [he, hm]
  delete e := by
    by_cases hm : e ∈ m
    case pos => simp [hm, h.delete_of_mem hm]
    case neg => simp [hm, h.delete_of_not_mem hm]
  lookup    := h.lookup
  nodup     := hashIterate_nodup h.wf
  iterate a := (mem_hashIterate_iff h.wf).trans (h.holds a)

theorem step {op : HashOp} (hc : m.keys.card < cfHashTableSize) (hs : ¬op.Severs t) :
    (op.step t).Represents (op.spec m) := by
  cases op
  case lookup => exact h
  case delete => exact h.delete hs
  case insert e r d =>
    by_cases hm : e ∈ m
    case pos =>
      have ⟨t', he, hr⟩ := h.insert_of_mem (r := r) (d := d) hm
      simpa [HashOp.step, HashOp.spec, he, hm] using hr
    case neg =>
      have ⟨t', he, hr⟩ := h.insert_of_not_mem (r := r) (d := d) hm (h.not_full hc)
      simpa [HashOp.step, HashOp.spec, he, hm] using hr

-- A removal that severs an association hides it from the lookups that follow.
theorem not_agrees_of_severs {op : HashOp} (hs : op.Severs t) :
    ¬(op.step t).Agrees (op.spec m) := by
  cases op
  case lookup => exact hs.elim
  case insert => exact hs.elim
  case delete e =>
    cases t
    case tiny => exact hs.elim
    case huge buckets =>
      intro ha
      have ⟨i, a, hi, hl, j, a', hj, hd⟩ := hs
      subst hl
      have hne : a'.lval ≠ a.lval := fun hk => by
        rw [Buckets.WellFormed.unique h.wf hi hj hk.symm] at hd
        exact hd.false
      have hv := h.holds a' |>.mp ⟨j, hj⟩
      have hf := ha.lookup a'.lval
      rw [HashOp.spec, Finmap.lookup_erase_ne hne, hv] at hf
      simp only [HashOp.step, hashDeleteElement, hashLookupElement,
        Buckets.hugeHashDeleteElement_of_holds h.wf hi,
        Buckets.hugeHashLookupElement_of_crossed h.wf hi hj hd] at hf
      contradiction

end AssocHashTable.Represents

theorem VarMap.card_keys_insert_le {m : VarMap} {e : CString} {v : Rval × DataType} :
    (Finmap.insert e v m).keys.card ≤ m.keys.card + 1 := by
  have hk : (Finmap.insert e v m).keys = insert e m.keys := by
    ext x
    simp [Finmap.mem_keys, Finmap.mem_insert]
  exact hk ▸ Finset.card_insert_le ..

theorem HashOp.card_keys_spec_le {m : VarMap} {op : HashOp} :
    (op.spec m).keys.card ≤ m.keys.card + 1 := by
  cases op
  case lookup => exact Nat.le_succ _
  case delete e =>
    rw [spec, Finmap.keys_erase]
    exact Finset.card_erase_le.trans <| Nat.le_succ _
  case insert e r d =>
    rw [spec]
    split
    case isTrue  => exact Nat.le_succ _
    case isFalse => exact VarMap.card_keys_insert_le

-- The capacity is only reached by a run that has as many operations.
theorem staysBelowCapacity_of_length_lt {ops : List HashOp} (h : ops.length < cfHashTableSize) :
    StaysBelowCapacity ops := by
  suffices hs : ∀ s : AssocHashTable × VarMap, s.2.keys.card + ops.length < cfHashTableSize →
      Always (fun s => s.2.keys.card < cfHashTableSize) HashOp.both s ops from
    hs _ (by simpa using h)
  clear h
  induction ops
  case nil => exact fun s h => h
  case cons op ops ih =>
    intro s h
    simp only [List.length_cons] at h
    have hs := op.card_keys_spec_le (m := s.2)
    exact ⟨by omega, ih _ (by simp only [HashOp.both]; omega)⟩

-- The table refines the map in exactly those runs in which no removal severs an association.
theorem refinesMap_iff {ops : List HashOp} (hc : StaysBelowCapacity ops) :
    RefinesMap ops ↔ EveryStep (fun s op => ¬op.Severs s.1) HashOp.both (hashInit, ∅) ops := by
  apply always_iff_everyStep (P := fun s => s.1.Represents s.2 ∧ s.2.keys.card < cfHashTableSize)
    ⟨.init, hc.head⟩ hc.everyStep
  · exact fun s h => h.left.agrees h.right
  · exact fun s op h hc hs => ⟨h.left.step h.right hs, hc.right⟩
  · exact fun s op h _ hs => h.left.not_agrees_of_severs (not_not.mp hs)

-- What is found in the home bucket of the element.
def AssocHashTable.homeKey (t : AssocHashTable) (e : CString) : Option CString :=
  match t with
  | tiny _       => none
  | huge buckets => (buckets <| bucketOf e).key

-- Where all associations are in their home buckets, no removal severs one of them.
theorem AssocHashTable.Represents.not_severs_of_home {t : AssocHashTable} {m : VarMap} {e : CString}
    (h : t.Represents m) (hhome : ∀ x ∈ m, t.homeKey x = some x) : ¬(HashOp.delete e).Severs t := by
  cases t
  case tiny         => exact id
  case huge buckets =>
    rintro ⟨i, a, _, _, j, a', hj, hd⟩
    have hat : buckets.keys (bucketOf a'.lval) = some a'.lval := hhome a'.lval <| h.mem_of_holds ⟨j, hj⟩
    have hkey : buckets.keys j = some a'.lval := by simp [Buckets.keys, hj]
    rw [Buckets.WellFormed.probed h.wf |>.unique hkey hat, Probing.dist_self] at hd
    exact Nat.not_lt_zero _ hd

theorem represents_run {ops : List HashOp} (hc : StaysBelowCapacity ops)
    (hs : EveryStep (fun s op => ¬op.Severs s.1) HashOp.both (hashInit, ∅) ops) :
    (ops.foldl HashOp.both (hashInit, ∅)).1.Represents (ops.foldl HashOp.both (hashInit, ∅)).2 := by
  have hrun := (hs.and hc.everyStep).always (P := fun s => s.1.Represents s.2 ∧ s.2.keys.card < cfHashTableSize)
    ⟨.init, hc.head⟩ fun s op h hg => ⟨h.left.step h.right hg.left, hg.right.right⟩
  exact hrun.last.left

-- The keys of the map have been inserted.
theorem forall_mem_foldl {ops : List HashOp} {s : AssocHashTable × VarMap} {p : CString → Prop}
    (h : ∀ e r d, .insert e r d ∈ ops → p e) (hs : ∀ x ∈ s.2, p x) : ∀ x ∈ (ops.foldl HashOp.both s).2, p x := by
  induction ops generalizing s
  case nil             => exact hs
  case cons op ops ih =>
    refine ih (fun e r d hm => h e r d <| List.mem_cons_of_mem _ hm) fun x hx => ?_
    cases op
    case lookup => exact hs x hx
    case delete => exact hs x (Finmap.mem_erase.mp hx).right
    case insert e r d =>
      simp only [HashOp.both, HashOp.spec] at hx
      split at hx
      case isTrue  => exact hs x hx
      case isFalse =>
        obtain rfl | hx := Finmap.mem_insert.mp hx
        case inl => exact h x r d List.mem_cons_self
        case inr => exact hs x hx

-- The last one of the insertions turns the array into the open-addressing table.
def fillingOps : List HashOp :=
  "abcdefghijklmno".toList.map (.insert [·] (.scalar []) .string)

theorem refinesMap_insert_delete : RefinesMap (fillingOps ++ [.delete ['a'], .lookup ['b']]) := by
  have hops : ∀ op ∈ fillingOps, ∀ s : AssocHashTable × VarMap, ¬op.Severs s.1 := by
    intro op hm _
    obtain ⟨c, _, rfl⟩ := List.mem_map.mp hm
    exact id
  have hfill : EveryStep (fun s op => ¬op.Severs s.1) HashOp.both (hashInit, ∅) fillingOps :=
    everyStep_of_forall_mem hops
  have hrep := represents_run (staysBelowCapacity_of_length_lt (by decide)) hfill
  refine refinesMap_iff (staysBelowCapacity_of_length_lt (by decide)) |>.mpr <|
    EveryStep.append.mpr ⟨hfill, hrep.not_severs_of_home fun x hx => ?_, id, trivial⟩
  have hhome : ∀ c ∈ "abcdefghijklmno".toList, (fillingOps.foldl HashOp.both (hashInit, ∅)).1.homeKey [c] = some [c] := by
    decide +kernel
  refine forall_mem_foldl (p := fun x => (fillingOps.foldl HashOp.both (hashInit, ∅)).1.homeKey x = some x)
    (fun e r d hm => ?_) (fun _ h => absurd h Finmap.notMem_empty) x hx
  obtain ⟨c, hc, he⟩ := List.mem_map.mp hm
  cases he
  exact hhome c hc

-- The keys `g` and `rq` have the same hash value, and the fifteenth insertion turns the array into
-- the open-addressing table.
def severingOps : List HashOp :=
  (['g'] :: ['r', 'q'] :: "abcdefhijklmn".toList.map ([·])).map (.insert · (.scalar []) .string) ++
    [.delete ['g']]

theorem severingOps_not_refinesMap :
    StaysBelowCapacity severingOps ∧ ¬RefinesMap severingOps := by
  refine ⟨staysBelowCapacity_of_length_lt (by decide), fun h => ?_⟩
  have hl := h.last.lookup ['r', 'q']
  have ht : hashLookupElement (severingOps.foldl HashOp.both (hashInit, ∅)).1 ['r', 'q'] = none := by
    decide +kernel
  have hm : (severingOps.foldl HashOp.both (hashInit, ∅)).2.lookup ['r', 'q'] ≠ none := by
    decide +kernel
  rw [ht, eq_comm, Option.map_eq_none_iff] at hl
  exact hm hl

end CfEngine
