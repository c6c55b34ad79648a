import CfEngine.Libpromises.EnvContext

namespace CfEngine.Libutils

abbrev MapKeyValue (α β : Type) := α × β

variable {α β : Type}

-- The loops over entries that look for the key. There is no result if the key is not found.
def replaceValue (equal_fn : α → α → Bool) (key : α) (value : β) :
    List (MapKeyValue α β) → Option (List (MapKeyValue α β))
  | []            => none
  | item :: items =>
    if equal_fn item.1 key then
      some ((item.1, value) :: items)
    else
      (replaceValue equal_fn key value items).map (item :: ·)

def removeItem (equal_fn : α → α → Bool) (key : α) : List (MapKeyValue α β) → Option (List (MapKeyValue α β))
  | []            => none
  | item :: items =>
    if equal_fn item.1 key then some items else (removeItem equal_fn key items).map (item :: ·)

def findItem (equal_fn : α → α → Bool) (key : α) (items : List (MapKeyValue α β)) : Option (MapKeyValue α β) :=
  items.find? fun item => equal_fn item.1 key

theorem length_replaceValue {equal_fn : α → α → Bool} {key : α} {value : β} {items items' : List (MapKeyValue α β)}
    (h : replaceValue equal_fn key value items = some items') : items'.length = items.length := by
  induction items generalizing items'
  case nil                => cases h
  case cons item items ih =>
    rw [replaceValue] at h
    split at h
    case isTrue  => cases h; rfl
    case isFalse =>
      have ⟨_, h, he⟩ := Option.map_eq_some_iff.mp h
      rw [← he, List.length_cons, ih h, List.length_cons]

theorem length_removeItem {equal_fn : α → α → Bool} {key : α} {items items' : List (MapKeyValue α β)}
    (h : removeItem equal_fn key items = some items') : items'.length < items.length := by
  induction items generalizing items'
  case nil                => cases h
  case cons item items ih =>
    rw [removeItem] at h
    split at h
    case isTrue  => cases h; exact Nat.lt_succ_self _
    case isFalse =>
      have ⟨_, h, he⟩ := Option.map_eq_some_iff.mp h
      rw [← he, List.length_cons, List.length_cons]
      exact Nat.succ_lt_succ <| ih h

def TINY_LIMIT : Nat := 14

structure ArrayMap (α β : Type) where
  equal_fn : α → α → Bool
  values   : List (MapKeyValue α β)
  fits     : values.length ≤ TINY_LIMIT

namespace ArrayMap

def new (equal_fn : α → α → Bool) : ArrayMap α β :=
  ⟨equal_fn, [], Nat.zero_le _⟩

-- There is no result if the array is full.
def insert (map : ArrayMap α β) (key : α) (value : β) : Option (ArrayMap α β) :=
  if h : map.values.length = TINY_LIMIT then
    none
  else
    match hr : replaceValue map.equal_fn key value map.values with
    | some values => some { map with values, fits := length_replaceValue hr ▸ map.fits }
    | none        => some { map with
      values := map.values ++ [(key, value)]
      fits   := List.length_append ▸ Nat.lt_of_le_of_ne map.fits h }

def remove (map : ArrayMap α β) (key : α) : Bool × ArrayMap α β :=
  match h : removeItem map.equal_fn key map.values with
  | some values => (true, { map with values, fits := Nat.le_of_lt <| (length_removeItem h).trans_le map.fits })
  | none        => (false, map)

def get (map : ArrayMap α β) (key : α) : Option (MapKeyValue α β) :=
  findItem map.equal_fn key map.values

def clear (map : ArrayMap α β) : ArrayMap α β :=
  { map with values := [], fits := Nat.zero_le _ }

end ArrayMap

def HASHMAP_BUCKETS : Nat := 8192

structure HashMap (α β : Type) where
  hash_fn  : α → Nat → Nat
  equal_fn : α → α → Bool
  buckets  : List (List (MapKeyValue α β))
  length   : buckets.length = HASHMAP_BUCKETS

namespace HashMap

def new (hash_fn : α → Nat → Nat) (equal_fn : α → α → Bool) : HashMap α β :=
  ⟨hash_fn, equal_fn, List.replicate HASHMAP_BUCKETS [], List.length_replicate⟩

def getBucket (map : HashMap α β) (key : α) : Nat :=
  map.hash_fn key HASHMAP_BUCKETS

def setBucket (map : HashMap α β) (bucket : Nat) (items : List (MapKeyValue α β)) : HashMap α β :=
  { map with buckets := map.buckets.set bucket items, length := List.length_set.trans map.length }

-- There is no bucket for a value that is too large.
def insert (map : HashMap α β) (key : α) (value : β) : Outcome (Bool × HashMap α β) := do
  let bucket := map.getBucket key
  let items ← map.buckets[bucket]?
  match replaceValue map.equal_fn key value items with
  | some items => return (true, map.setBucket bucket items)
  | none       => return (false, map.setBucket bucket ((key, value) :: items))

def remove (map : HashMap α β) (key : α) : Outcome (Bool × HashMap α β) := do
  let bucket := map.getBucket key
  let items ← map.buckets[bucket]?
  match removeItem map.equal_fn key items with
  | some items => return (true, map.setBucket bucket items)
  | none       => return (false, map)

def get (map : HashMap α β) (key : α) : Outcome (Option (MapKeyValue α β)) := do
  let items ← map.buckets[map.getBucket key]?
  return findItem map.equal_fn key items

def clear (map : HashMap α β) : HashMap α β :=
  { map with buckets := map.buckets.map fun _ => [], length := (List.length_map _).trans map.length }

end HashMap

-- The hash function of a map with an array is for when the array is full.
inductive Map (α β : Type)
  | arraymap (hash_fn : α → Nat → Nat) (map : ArrayMap α β)
  | hashmap (map : HashMap α β)

-- The iterator over an array and its position, or over buckets, with what is left of the one at the number.
inductive MapIterator (α β : Type)
  | arraymap_iter (map : ArrayMap α β) (pos : Nat)
  | hashmap_iter (map : HashMap α β) (cur : List (MapKeyValue α β)) (bucket : Nat)

def hashMapIteratorNext (map : HashMap α β) (cur : List (MapKeyValue α β)) (bucket : Nat) :
    Option (MapKeyValue α β) × MapIterator α β :=
  match cur with
  | item :: cur => (some item, .hashmap_iter map cur bucket)
  | []          =>
    if h : bucket + 1 < HASHMAP_BUCKETS then
      hashMapIteratorNext map (map.buckets.get ⟨bucket + 1, map.length.symm ▸ h⟩) (bucket + 1)
    else
      (none, .hashmap_iter map [] (bucket + 1))
termination_by HASHMAP_BUCKETS - bucket

def mapIteratorNext : MapIterator α β → Option (MapKeyValue α β) × MapIterator α β
  | .arraymap_iter map pos         =>
    if h : pos < map.values.length then
      (some <| map.values.get ⟨pos, h⟩, .arraymap_iter map (pos + 1))
    else
      (none, .arraymap_iter map pos)
  | .hashmap_iter map cur bucket => hashMapIteratorNext map cur bucket

-- What the iterator has not come to.
def MapIterator.remaining : MapIterator α β → List (MapKeyValue α β)
  | arraymap_iter map pos        => map.values.drop pos
  | hashmap_iter map cur bucket => cur ++ (map.buckets.drop (bucket + 1)).flatten

theorem hashMapIteratorNext_spec (map : HashMap α β) (cur : List (MapKeyValue α β)) (bucket : Nat) :
    match hashMapIteratorNext map cur bucket with
    | (some item, i) => (MapIterator.hashmap_iter map cur bucket).remaining = item :: i.remaining
    | (none, _)      => (MapIterator.hashmap_iter map cur bucket).remaining = [] := by
  induction cur, bucket using hashMapIteratorNext.induct map
  case case1 bucket item cur =>
    rw [hashMapIteratorNext]
    rfl
  case case2 bucket h ih     =>
    rw [hashMapIteratorNext, dif_pos h]
    have he : (MapIterator.hashmap_iter map [] bucket).remaining =
        (MapIterator.hashmap_iter map (map.buckets.get ⟨bucket + 1, map.length.symm ▸ h⟩) (bucket + 1)).remaining := by
      rw [MapIterator.remaining, MapIterator.remaining, List.drop_eq_getElem_cons (map.length.symm ▸ h)]
      rfl
    rw [he]
    exact ih
  case case3 bucket h        =>
    rw [hashMapIteratorNext, dif_neg h]
    have hlen : map.buckets.length ≤ bucket + 1 := map.length.symm ▸ Nat.not_lt.mp h
    simp only [MapIterator.remaining, List.drop_eq_nil_of_le hlen, List.flatten_nil, List.append_nil]

theorem mapIteratorNext_spec (i : MapIterator α β) :
    match mapIteratorNext i with
    | (some item, i') => i.remaining = item :: i'.remaining
    | (none, _)       => i.remaining = [] := by
  cases i
  case hashmap_iter map cur bucket => exact hashMapIteratorNext_spec map cur bucket
  case arraymap_iter map pos       =>
    rw [mapIteratorNext]
    split_ifs
    case pos h => exact List.drop_eq_getElem_cons h
    case neg h => exact List.drop_eq_nil_of_le <| Nat.not_lt.mp h

theorem mapIteratorNext_some {i i' : MapIterator α β} {item : MapKeyValue α β}
    (h : mapIteratorNext i = (some item, i')) : i.remaining = item :: i'.remaining := by
  have hs := mapIteratorNext_spec i
  rwa [h] at hs

theorem mapIteratorNext_none {i i' : MapIterator α β} (h : mapIteratorNext i = (none, i')) : i.remaining = [] := by
  have hs := mapIteratorNext_spec i
  rwa [h] at hs

-- What the iterator gives until it comes to its end.
def iterate (i : MapIterator α β) : List (MapKeyValue α β) :=
  match h : mapIteratorNext i with
  | (some item, i') => item :: iterate i'
  | (none, _)       => []
termination_by i.remaining.length
decreasing_by
  rw [mapIteratorNext_some h]
  exact Nat.lt_succ_self _

-- The loop that counts.
def countItems (i : MapIterator α β) (size : Nat) : Nat :=
  match h : mapIteratorNext i with
  | (some _, i') => countItems i' (size + 1)
  | (none, _)    => size
termination_by i.remaining.length
decreasing_by
  rw [mapIteratorNext_some h]
  exact Nat.lt_succ_self _

namespace Map

def new (hash_fn : α → Nat → Nat) (equal_fn : α → α → Bool) : Map α β :=
  .arraymap hash_fn (.new equal_fn)

def convertToHashMap (hash_fn : α → Nat → Nat) (map : ArrayMap α β) : Outcome (HashMap α β) :=
  map.values.foldlM (fun hash item => (hash.insert item.1 item.2).map Prod.snd) (HashMap.new hash_fn map.equal_fn)

def insert (map : Map α β) (key : α) (value : β) : Outcome (Map α β) :=
  match map with
  | arraymap hash_fn array =>
    match array.insert key value with
    | some array => some <| .arraymap hash_fn array
    | none       => do
      let hash ← convertToHashMap hash_fn array
      let (_, hash) ← hash.insert key value
      return .hashmap hash
  | hashmap hash           => do
    let (_, hash) ← hash.insert key value
    return .hashmap hash

def getRaw (map : Map α β) (key : α) : Outcome (Option (MapKeyValue α β)) :=
  match map with
  | arraymap _ array => some <| array.get key
  | hashmap hash     => hash.get key

def hasKey (map : Map α β) (key : α) : Outcome Bool :=
  (map.getRaw key).map Option.isSome

-- The value may be NULL, which is also what there is if the key is not found.
def get (map : Map α (Option β)) (key : α) : Outcome (Option β) := do
  match ← map.getRaw key with
  | some item => return item.2
  | none      => return none

def remove (map : Map α β) (key : α) : Outcome (Bool × Map α β) :=
  match map with
  | arraymap hash_fn array => some <| (array.remove key).map id (.arraymap hash_fn)
  | hashmap hash           => (hash.remove key).map fun result => result.map id .hashmap

def clear : Map α β → Map α β
  | arraymap hash_fn map => .arraymap hash_fn map.clear
  | hashmap map          => .hashmap map.clear

def iteratorInit : Map α β → MapIterator α β
  | arraymap _ map => .arraymap_iter map 0
  | hashmap map    => .hashmap_iter map (map.buckets.head <| List.ne_nil_of_length_pos <|
    map.length.symm ▸ (by decide : 0 < HASHMAP_BUCKETS)) 0

def size (map : Map α β) : Nat :=
  match map with
  | arraymap _ array => array.values.length
  | hashmap _        => countItems map.iteratorInit 0

end Map

inductive MapCall (α β : Type)
  | insert (key : α) (value : β)
  | remove (key : α)
  | clear

def Map.step (map : Map α β) : MapCall α β → Outcome (Map α β)
  | .insert key value => map.insert key value
  | .remove key       => (map.remove key).map Prod.snd
  | .clear            => some map.clear

end CfEngine.Libutils
