import CfEngine.Library.Probing
import CfEngine.Libutils.Strings
import CfEngine.Libpromises.Rlist

open Probing

namespace CfEngine

def cfHashTableSize : Nat := 8192

instance : NeZero cfHashTableSize :=
  ⟨by decide⟩

def tinyLimit : Nat := 14

structure CfAssoc where
  lval  : CString
  rval  : Rval
  dtype : DataType
  deriving DecidableEq

def newAssoc (lval : CString) (rval : Rval) (dt : DataType) : CfAssoc where
  lval  := lval
  rval  := rval
  dtype := dt

abbrev Slot := Fin cfHashTableSize

-- The constructor `deleted` is the marker `HASH_ENTRY_DELETED`.
inductive Bucket
  | null
  | deleted
  | assoc (a : CfAssoc)
  deriving DecidableEq

abbrev Buckets := Slot → Bucket

structure AssocArray where
  values  : List CfAssoc
  size_le : values.length ≤ tinyLimit

inductive AssocHashTable
  | tiny (array : AssocArray)
  | huge (buckets : Buckets)

def bucketOf (element : CString) : Slot :=
  ⟨(oatHash element 8192).toNat, oatHash_toNat_lt (by decide)⟩

def hashInit : AssocHashTable :=
  .tiny ⟨[], by decide⟩

namespace Buckets

-- The insertion that is inlined in `HashConvertToHuge`. The source loops until it finds a free
-- bucket, which exists since an array holds fewer entries than there are buckets.
def place (buckets : Buckets) (a : CfAssoc) : Buckets :=
  match walk (fun i => if buckets i = .null then some i else none) (bucketOf a.lval) with
  | some i => Function.update buckets i (.assoc a)
  | none   => buckets

def hugeHashInsertElement (buckets : Buckets) (element : CString) (rval : Rval) (dtype : DataType) :
    Buckets × Bool :=
  match walk body (bucketOf element) with
  | some (some i) => (Function.update buckets i (.assoc <| newAssoc element rval dtype), true)
  | some none     => (buckets, false)
  | none          => (buckets, false)
where
  body (i : Slot) : Option (Option Slot) :=
    match buckets i with
    | .null | .deleted => some (some i)
    | .assoc a         => if element = a.lval then some none else none

def hugeHashDeleteElement (buckets : Buckets) (element : CString) : Buckets × Bool :=
  match walk body (bucketOf element) with
  | some (some i) => (Function.update buckets i .null, true)
  | some none     => (buckets, false)
  | none          => (buckets, false)
where
  body (i : Slot) : Option (Option Slot) :=
    match buckets i with
    | .null    => some none
    | .deleted => none
    | .assoc a => if element = a.lval then some (some i) else none

-- The returned pointer is given by the bucket that holds it and the association it points to.
def hugeHashLookupElement (buckets : Buckets) (element : CString) : Option (Slot × CfAssoc) :=
  (walk body (bucketOf element)).join
where
  body (i : Slot) : Option (Option (Slot × CfAssoc)) :=
    match buckets i with
    | .null    => some none
    | .deleted => none
    | .assoc a => if element = a.lval then some (some (i, a)) else none

-- The loop of `HugeHashIteratorNext`, where `k` bounds the number of buckets that are left.
def hugeHashIteratorNext (buckets : Buckets) : (k pos : Nat) → Option CfAssoc × Nat
  | 0, pos     => (none, pos)
  | k + 1, pos =>
    if h : pos < cfHashTableSize then
      match buckets ⟨pos, h⟩ with
      | .assoc a => (some a, pos + 1)
      | _        => hugeHashIteratorNext buckets k (pos + 1)
    else
      (none, pos)

end Buckets

namespace AssocArray

def hashConvertToHuge (array : AssocArray) : Buckets :=
  array.values.foldl Buckets.place (fun _ => .null)

def tinyHashInsertElement (array : AssocArray) (element : CString) (rval : Rval)
    (dtype : DataType) : AssocHashTable × Bool :=
  if h : array.values.length = tinyLimit then
    let (buckets, result) := array.hashConvertToHuge.hugeHashInsertElement element rval dtype
    (.huge buckets, result)
  else if array.values.any (·.lval = element) then
    (.tiny array, false)
  else
    (.tiny ⟨array.values ++ [newAssoc element rval dtype], by
      have := array.size_le
      simp only [List.length_append, List.length_singleton]
      omega⟩, true)

def tinyHashDeleteElement (array : AssocArray) (element : CString) : AssocHashTable × Bool :=
  match array.values.findIdx? (·.lval = element) with
  | some i =>
    (.tiny ⟨array.values.eraseIdx i, (List.length_eraseIdx_le ..).trans array.size_le⟩, true)
  | none   => (.tiny array, false)

def tinyHashLookupElement (array : AssocArray) (element : CString) : Option CfAssoc :=
  array.values.find? (·.lval = element)

def tinyHashIteratorNext (array : AssocArray) (pos : Nat) : Option CfAssoc × Nat :=
  if h : pos < array.values.length then (some array.values[pos], pos + 1) else (none, pos)

end AssocArray

def hashInsertElement (hashtable : AssocHashTable) (element : CString) (rval : Rval)
    (dtype : DataType) : AssocHashTable × Bool :=
  match hashtable with
  | .huge buckets =>
    let (buckets, result) := buckets.hugeHashInsertElement element rval dtype
    (.huge buckets, result)
  | .tiny array   => array.tinyHashInsertElement element rval dtype

def hashDeleteElement (hashtable : AssocHashTable) (element : CString) : AssocHashTable × Bool :=
  match hashtable with
  | .huge buckets =>
    let (buckets, result) := buckets.hugeHashDeleteElement element
    (.huge buckets, result)
  | .tiny array   => array.tinyHashDeleteElement element

def hashLookupElement (hashtable : AssocHashTable) (element : CString) : Option CfAssoc :=
  match hashtable with
  | .huge buckets => (buckets.hugeHashLookupElement element).map Prod.snd
  | .tiny array   => array.tinyHashLookupElement element

-- Assigns through the pointer that `HashLookupElement` yields.
def hashAssignElement (hashtable : AssocHashTable) (element : CString) (rval : Rval)
    (dtype : DataType) : AssocHashTable :=
  match hashtable with
  | .huge buckets =>
    match buckets.hugeHashLookupElement element with
    | some (i, a) => .huge <| Function.update buckets i (.assoc { a with rval, dtype })
    | none        => .huge buckets
  | .tiny array   =>
    match array.values.findIdx? (·.lval = element) with
    | some i => .tiny ⟨array.values.modify i ({ · with rval, dtype }), by
        simpa using array.size_le⟩
    | none   => .tiny array

structure AssocHashTableIterator where
  hashtable : AssocHashTable
  pos       : Nat

def hashIteratorInit (hashtable : AssocHashTable) : AssocHashTableIterator where
  hashtable := hashtable
  pos       := 0

def hashIteratorNext (i : AssocHashTableIterator) : Option CfAssoc × AssocHashTableIterator :=
  let (assoc, pos) :=
    match i.hashtable with
    | .huge buckets => buckets.hugeHashIteratorNext cfHashTableSize i.pos
    | .tiny array   => array.tinyHashIteratorNext i.pos
  (assoc, { i with pos })

-- The associations that a loop `while ((assoc = HashIteratorNext(&i)))` goes through. A table has
-- at most `CF_HASHTABLESIZE` of them.
def hashIterate (hashtable : AssocHashTable) : List CfAssoc :=
  go (cfHashTableSize + 1) (hashIteratorInit hashtable)
where
  go : Nat → AssocHashTableIterator → List CfAssoc
    | 0, _     => []
    | k + 1, i =>
      match hashIteratorNext i with
      | (some a, i) => a :: go k i
      | (none, _)   => []

end CfEngine
