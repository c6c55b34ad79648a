import Mathlib.Data.List.SplitOn
import CfEngine.Library.Chained
import CfEngine.Libpromises.Matching

namespace CfEngine

def isItemIn (list : List CString) (item : CString) : Bool :=
  item = [] ∨ item ∈ list

-- What can go wrong in an edit: a pointer is followed that is not to an item, a buffer is too small, or a loop does not
-- end.
inductive EditFault
  | badPointer
  | bufferOverflow
  | endless
  deriving DecidableEq

abbrev EditOutcome := Except EditFault

@[simp]
theorem EditOutcome.ok_bind {α β : Type} {a : α} {f : α → EditOutcome β} : (Except.ok a >>= f) = f a :=
  rfl

@[simp]
theorem EditOutcome.error_bind {α β : Type} {fault : EditFault} {f : α → EditOutcome β} :
    (Except.error fault >>= f) = .error fault :=
  rfl

-- The items of a list in memory. An item that has been freed is not there.
abbrev Items := Links CString

-- `CF_UNDEFINED_ITEM` is a pointer other than NULL and those to items.
inductive ItemPtr
  | undefined
  | ptr (p : Option Nat)
  deriving DecidableEq

namespace ItemPtr

abbrev null : ItemPtr :=
  ptr none

abbrev item (a : Nat) : ItemPtr :=
  ptr (some a)

@[simp]
theorem item_ne_null {a : Nat} : item a ≠ null :=
  nofun

end ItemPtr

inductive EditOrder
  | before
  | after
  deriving DecidableEq

inductive InsertMatchType
  | ignoreLeading
  | ignoreTrailing
  | ignoreEmbedded
  | exact
  deriving DecidableEq

-- The library for regular expressions: whether an expression compiles, whether it compiles and matches the full string,
-- and whether it compiles and matches in the string. Besides, the comparison of lines that ignores white space.
structure TextMatching where
  valid    : CString → Bool
  full     : CString → CString → Bool
  block    : CString → CString → Bool
  ignoring : List InsertMatchType → CString → CString → Bool

-- No regular expressions match, so that lines are matched by themselves.
def literally : TextMatching :=
  ⟨fun _ => true, fun _ _ => false, fun _ _ => false, fun _ _ _ => false⟩

-- With `exact_match` there is no other policy.
def matchPolicy (rx : TextMatching) (insert_match : List InsertMatchType) (camel haystack : CString) : Bool :=
  match insert_match with
  | []          => camel = haystack
  | .exact :: _ => camel = haystack
  | policies    => rx.ignoring policies camel haystack

namespace Items

def deref (items : Items) : ItemPtr → EditOutcome (Link CString)
  | .ptr (some a) =>
    match items.get a with
    | some item => .ok item
    | none      => .error .badPointer
  | _             => .error .badPointer

def setNext (items : Items) (a : Nat) (next : Option Nat) : EditOutcome Items := do
  let item ← items.deref (.item a)
  return items.put a <| some { item with next }

theorem deref_eq {items : Items} {a : Nat} {item : Link CString} (h : items.get a = some item) :
    items.deref (.item a) = .ok item := by
  rw [deref, h]

theorem setNext_eq {items : Items} {a : Nat} {x : CString} {n next : Option Nat} (h : items.get a = some ⟨x, n⟩) :
    items.setNext a next = .ok (items.put a <| some ⟨x, next⟩) := by
  rw [setNext, deref_eq h]
  rfl

-- A list without a cycle has at most as many items as there are in memory.
def fuel (items : Items) : Nat :=
  items.length + 1

def isItemInRegionLoop (items : Items) (isMatch : CString → Bool) (end_ptr : ItemPtr) : Nat → ItemPtr → EditOutcome Bool
  | 0, _         => .error .endless
  | fuel + 1, ip =>
    if ip = end_ptr ∨ ip = .null then
      .ok false
    else do
      let item ← items.deref ip
      if isMatch item.payload then .ok true else isItemInRegionLoop items isMatch end_ptr fuel (.ptr item.next)

def isItemInRegion (rx : TextMatching) (items : Items) (item : CString) (begin_ptr end_ptr : ItemPtr)
    (insert_match : List InsertMatchType) : EditOutcome Bool :=
  isItemInRegionLoop items (matchPolicy rx insert_match item) end_ptr items.fuel begin_ptr

-- The loop finds the match and the item before it.
def selectNextLoop (items : Items) (isMatch : CString → Bool) (ending : ItemPtr) :
    Nat → (ip ip_prev : ItemPtr) → EditOutcome (Option (ItemPtr × ItemPtr))
  | 0, _, _               => .error .endless
  | fuel + 1, ip, ip_prev =>
    if ip = ending then
      .ok none
    else do
      let item ← items.deref ip
      if isMatch item.payload then
        .ok <| some (ip, ip_prev)
      else
        selectNextLoop items isMatch ending fuel (.ptr item.next) ip

def selectNextItemMatching (rx : TextMatching) (items : Items) (regexp : CString) (begin ending : ItemPtr) :
    EditOutcome (Option (ItemPtr × ItemPtr)) :=
  selectNextLoop items (fullTextMatch rx.full regexp) ending items.fuel begin .undefined

def selectLastLoop (items : Items) (isMatch : CString → Bool) (ending : ItemPtr) :
    Nat → (ip ip_prev : ItemPtr) → Option (ItemPtr × ItemPtr) → EditOutcome (Option (ItemPtr × ItemPtr))
  | 0, _, _, _                  => .error .endless
  | fuel + 1, ip, ip_prev, last =>
    if ip = ending then
      .ok last
    else do
      let item ← items.deref ip
      let last := if isMatch item.payload then some (ip, ip_prev) else last
      selectLastLoop items isMatch ending fuel (.ptr item.next) ip last

def selectLastItemMatching (rx : TextMatching) (items : Items) (regexp : CString) (begin ending : ItemPtr) :
    EditOutcome (Option (ItemPtr × ItemPtr)) :=
  selectLastLoop items (fullTextMatch rx.full regexp) ending items.fuel begin .undefined none

-- The item before the match in the whole list.
def previousLoop (items : Items) (found : ItemPtr) : Nat → (ip prev : ItemPtr) → EditOutcome ItemPtr
  | 0, _, _            => .error .endless
  | fuel + 1, ip, prev =>
    if ip = .null ∨ ip = found then
      .ok prev
    else do
      let item ← items.deref ip
      previousLoop items found fuel (.ptr item.next) ip

def selectMatching (rx : TextMatching) (items : Items) (regex : CString) (begin_ptr end_ptr : ItemPtr)
    (fl : Option CString) : EditOutcome (Option (ItemPtr × ItemPtr)) :=
  if fl = some ['f', 'i', 'r', 's', 't'] then
    selectNextItemMatching rx items regex begin_ptr end_ptr
  else
    selectLastItemMatching rx items regex begin_ptr end_ptr

def previousItem (items : Items) (start found prev : ItemPtr) : EditOutcome ItemPtr :=
  if prev = .undefined then previousLoop items found items.fuel start .undefined else .ok prev

def selectItemMatching (rx : TextMatching) (items : Items) (start : ItemPtr) (regex : Option CString)
    (begin_ptr end_ptr : ItemPtr) (fl : Option CString) : EditOutcome (Option (ItemPtr × ItemPtr)) :=
  match regex with
  | none       => .ok none
  | some regex => do
    match ← selectMatching rx items regex begin_ptr end_ptr fl with
    | none               => .ok none
    | some (found, prev) => return some (found, ← previousItem items start found prev)

-- The loop over the lines of the chunk, which are read into `buf` one after the other.
def matchLines (items : Items) (isMatch : CString → CString → Bool) (ending : ItemPtr) :
    List CString → (ip : ItemPtr) → (lines : Nat) → EditOutcome Nat
  | [], _, lines          => .ok lines
  | buf :: more, ip, lines =>
    if cfBufSize ≤ buf.length then
      .error .bufferOverflow
    else if ip = .null then
      .ok 0
    else do
      let item ← items.deref ip
      if ¬isMatch buf item.payload then
        .ok 0
      else if ip = ending then
        .ok 0
      else
        match item.next with
        | some next => matchLines items isMatch ending more (.item next) (lines + 1)
        | none      => if more = [] then .ok (lines + 1) else .ok 0

def matchRegion (rx : TextMatching) (items : Items) (chunk : CString) (begin ending : ItemPtr) (regex : Bool) :
    EditOutcome Nat :=
  matchLines items (if regex then fullTextMatch rx.full else fun buf name => buf = name) ending (chunk.splitOn '\n') begin 0

def lastLoop (items : Items) : Nat → Nat → EditOutcome Nat
  | 0, _         => .error .endless
  | fuel + 1, lp => do
    let item ← items.deref (.item lp)
    match item.next with
    | some next => lastLoop items fuel next
    | none      => .ok lp

end Items

-- The list of the items, with its start.
structure ItemList where
  items : Items
  start : Option Nat

namespace ItemList

def prependItemList (list : ItemList) (itemstring : CString) : ItemList :=
  ⟨list.items ++ [some ⟨itemstring, list.start⟩], some list.items.length⟩

def appendItem (list : ItemList) (itemstring : CString) : EditOutcome ItemList :=
  let items := list.items ++ [some ⟨itemstring, none⟩]
  match list.start with
  | none       => .ok ⟨items, some list.items.length⟩
  | some start => do
    let last ← list.items.lastLoop list.items.fuel start
    let items ← items.setNext last (some list.items.length)
    return ⟨items, list.start⟩

def insertAfter (list : ItemList) (p : ItemPtr) (string : CString) : EditOutcome ItemList :=
  if list.start = none ∨ p = .undefined then
    list.appendItem string
  else
    match p with
    | .ptr (some a) => do
      let item ← list.items.deref (.item a)
      let items ← Items.setNext (list.items ++ [some ⟨string, item.next⟩]) a (some list.items.length)
      return ⟨items, list.start⟩
    | _             => list.appendItem string

def neighbourLoop (items : Items) (isMatch : CString → Bool) (pos : EditOrder) (location : ItemPtr) :
    Nat → (ip : Option Nat) → EditOutcome Bool
  | 0, _             => .error .endless
  | _ + 1, none      => .ok false
  | fuel + 1, some ip => do
    let item ← items.deref (.item ip)
    match pos with
    | .before =>
      if item.next ≠ none ∧ .ptr item.next = location then
        .ok <| isMatch item.payload
      else
        neighbourLoop items isMatch pos location fuel item.next
    | .after  =>
      if .item ip = location then
        match item.next with
        | some next => do
          let item ← items.deref (.item next)
          .ok <| isMatch item.payload
        | none      => .ok false
      else
        neighbourLoop items isMatch pos location fuel item.next

def neighbourItemMatches (rx : TextMatching) (list : ItemList) (location : ItemPtr) (string : CString) (pos : EditOrder)
    (insert_match : List InsertMatchType) : EditOutcome Bool :=
  neighbourLoop list.items (matchPolicy rx insert_match string) pos location list.items.fuel list.start

end ItemList
end CfEngine
