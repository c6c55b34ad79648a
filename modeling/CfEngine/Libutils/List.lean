import CfEngine.Library.Linked
import CfEngine.Libpromises.EnvContext
import CfEngine.Libutils.RefCount

namespace CfEngine.Libutils

open Function (update)

-- The pointer to an element may be NULL.
abbrev ListNode (α : Type) := Cell (Option α)

structure ListMutableIterator where
  valid   : Bool
  current : Nat
  deriving DecidableEq

-- What an element is copied to may depend on where the copy is kept.
structure LinkedList (α : Type) where
  node_count : Int
  list       : Option Nat
  first      : Option Nat
  last       : Option Nat
  compare    : Option (α → α → Int)
  copy       : Option (Nat → α → α)
  ref_count  : Nat
  iterator   : Option ListMutableIterator

-- The memory of the lists, with the next address that is not in use.
structure ListHeap (α : Type) where
  next      : Nat
  cells     : Cells (Option α)
  refCounts : Nat → RefCount
  lists     : Nat → Option (LinkedList α)

variable {α : Type}

-- The pointer in a new node. It is not set for an element that is NULL.
def LinkedList.copied (list : LinkedList α) (garbage : Nat → Option α) (node : Nat) : Option α → Option α
  | none         => garbage node
  | some payload => some <| list.copy.elim payload fun copy => copy node payload

-- The loop over the nodes, with the last new node. There is no end to it if the nodes have none.
def copyNodes (copied : Nat → Option α → Option α) : Nat → Cells (Option α) → Option Nat → Option Nat → Nat →
    Outcome (Cells (Option α) × Option Nat × Nat)
  | 0, _, _, _, _                    => none
  | _ + 1, cells, none, q, next      => some (cells, q, next)
  | fuel + 1, cells, some p, q, next => do
    let node ← cells p
    let cells : Cells (Option α) := update cells next <| some ⟨copied next node.payload, none, q⟩
    let cells ← cells.setNextOf q (some next)
    copyNodes copied fuel cells node.next (some next) (next + 1)

-- The node is taken out of the list, and is free.
def unlink (list : LinkedList α) (cells : Cells (Option α)) (a : Nat) (node : ListNode α) :
    Outcome (LinkedList α × Cells (Option α)) := do
  let (list, cells) ← match node.next, node.previous with
    | some next, some previous => do
      let cells ← cells.setPrevious next (some previous)
      let cells ← cells.setNext previous (some next)
      pure (list, cells)
    | some next, none          => do
      let cells ← cells.setPrevious next none
      pure ({ list with list := some next, first := some next }, cells)
    | none, some previous      => do
      let cells ← cells.setNext previous none
      pure ({ list with last := some previous }, cells)
    | none, none               => pure ({ list with list := none, first := none, last := none }, cells)
  return ({ list with node_count := list.node_count - 1 }, update cells a none)

def LinkedList.isMatch [DecidableEq α] (list : LinkedList α) (element payload : α) : Bool :=
  match list.compare with
  | some compare => compare element payload = 0
  | none         => element = payload

def listFindNode [DecidableEq α] (list : LinkedList α) (payload : α) : Nat → Cells (Option α) → Option Nat → Outcome Bool
  | 0, _, _                => none
  | _ + 1, _, none         => some false
  | fuel + 1, cells, some p => do
    let node ← cells p
    match node.payload with
    | none         => listFindNode list payload fuel cells node.next
    | some element =>
      if list.isMatch element payload then some true else listFindNode list payload fuel cells node.next

-- The loop that looks for the node again. It is undefined to compare NULL, and to go on where nothing is found.
def listFindAgain [DecidableEq α] (list : LinkedList α) (payload : α) : Nat → Cells (Option α) → Option Nat → Outcome Nat
  | 0, _, _                 => none
  | _ + 1, _, none          => none
  | fuel + 1, cells, some p => do
    let node ← cells p
    match node.payload with
    | none         => if list.compare.isSome then none else listFindAgain list payload fuel cells node.next
    | some element =>
      if list.isMatch element payload then some p else listFindAgain list payload fuel cells node.next

namespace ListHeap

def empty : ListHeap α :=
  ⟨0, fun _ => none, fun _ => RefCount.new, fun _ => none⟩

def put (heap : ListHeap α) (i : Nat) (list : LinkedList α) (cells : Cells (Option α)) : ListHeap α :=
  { heap with cells := cells, lists := update heap.lists i (some list) }

def listNew (compare : Option (α → α → Int)) (copy : Option (Nat → α → α)) (heap : ListHeap α) : ListHeap α :=
  let list : LinkedList α := ⟨0, none, none, none, compare, copy, heap.next + 1, none⟩
  { heap with
    next      := heap.next + 2
    refCounts := update heap.refCounts list.ref_count (RefCount.new.attach heap.next)
    lists     := update heap.lists heap.next (some list) }

-- A list that is not there stands for NULL here and below.
def listCopy (origin : Nat) (heap : ListHeap α) : Int × ListHeap α :=
  match heap.lists origin with
  | none      => (-1, heap)
  | some list =>
    if list.copy.isNone then
      (-1, heap)
    else
      (0, { heap with
        next      := heap.next + 1
        refCounts := update heap.refCounts list.ref_count <| (heap.refCounts list.ref_count).attach heap.next
        lists     := update heap.lists heap.next <| some { list with iterator := none } })

def listDetach (garbage : Nat → Option α) (i : Nat) (list : LinkedList α) (heap : ListHeap α) :
    Outcome (LinkedList α × ListHeap α) :=
  if ¬(heap.refCounts list.ref_count).isShared then
    some (list, heap)
  else do
    let (cells, last, next) ← copyNodes (list.copied garbage) (heap.next + 1) heap.cells list.list none heap.next
    let first := list.list.map fun _ => heap.next
    let old := ((heap.refCounts list.ref_count).detach i).getD (heap.refCounts list.ref_count)
    let list' := { list with list := first, first := first, last := last, ref_count := next }
    return (list', { heap with
      next      := next + 1
      cells     := cells
      refCounts := update (update heap.refCounts list.ref_count old) next (RefCount.new.attach i)
      lists     := update heap.lists i (some list') })

def listPrepend (garbage : Nat → Option α) (i : Nat) (payload : Option α) (heap : ListHeap α) :
    Outcome (Int × ListHeap α) := do
  let some list := heap.lists i | return (-1, heap)
  let (list, heap) ← heap.listDetach garbage i list
  let node := heap.next
  let cells : Cells (Option α) := update heap.cells node <| some ⟨payload, list.list, none⟩
  let cells ← cells.setPreviousOf list.list (some node)
  let last := if list.list.isSome then list.last else some node
  let list := { list with
    list := some node, first := some node, last := last, node_count := list.node_count + 1 }
  return (0, { heap with next := heap.next + 1 }.put i list cells)

def listAppend (garbage : Nat → Option α) (i : Nat) (payload : Option α) (heap : ListHeap α) :
    Outcome (Int × ListHeap α) := do
  let some list := heap.lists i | return (-1, heap)
  let (list, heap) ← heap.listDetach garbage i list
  let node := heap.next
  let cells : Cells (Option α) := update heap.cells node <| some ⟨payload, none, list.last⟩
  let cells ← cells.setNextOf list.last (some node)
  let head := if list.last.isSome then list.list else some node
  let first := if list.last.isSome then list.first else some node
  let list := { list with list := head, first := first, last := some node, node_count := list.node_count + 1 }
  return (0, { heap with next := heap.next + 1 }.put i list cells)

-- The iterator moves away from the node that is to be removed.
def iteratorLeaving (node : Nat) (cell : ListNode α) (iterator : ListMutableIterator) : ListMutableIterator :=
  if iterator.current = node then
    match cell.next, cell.previous with
    | some next, _        => { iterator with current := next }
    | none, some previous => { iterator with current := previous }
    | none, none          => { iterator with valid := false }
  else
    iterator

def listRemove [DecidableEq α] (garbage : Nat → Option α) (i : Nat) (payload : Option α) (heap : ListHeap α) :
    Outcome (Int × ListHeap α) := do
  let some list := heap.lists i | return (-1, heap)
  let some payload := payload | return (-1, heap)
  if ¬(← listFindNode list payload (heap.next + 1) heap.cells list.list) then
    return (-1, heap)
  let (list, heap) ← heap.listDetach garbage i list
  let node ← listFindAgain list payload (heap.next + 1) heap.cells list.list
  let cell ← heap.cells node
  let list := { list with iterator := list.iterator.map (iteratorLeaving node cell) }
  let (list, cells) ← unlink list heap.cells node cell
  return (0, heap.put i list cells)

def listMutableIteratorGet (i : Nat) (heap : ListHeap α) : ListHeap α :=
  match heap.lists i with
  | none      => heap
  | some list =>
    match list.iterator, list.first with
    | none, some first => heap.put i { list with iterator := some ⟨true, first⟩ } heap.cells
    | _, _             => heap

-- The list and its iterator, where it has one that is valid.
def iterator? (heap : ListHeap α) (i : Nat) : Option (LinkedList α × Nat) := do
  let list ← heap.lists i
  let iterator ← list.iterator
  if iterator.valid then some (list, iterator.current) else none

def moveIterator (target : ListNode α → Option Nat) (i : Nat) (heap : ListHeap α) : Outcome (Int × ListHeap α) := do
  let some (list, current) := heap.iterator? i | return (-1, heap)
  let node ← heap.cells current
  match target node with
  | none         => return (-1, heap)
  | some current => return (0, heap.put i { list with iterator := some ⟨true, current⟩ } heap.cells)

def listMutableIteratorNext (i : Nat) (heap : ListHeap α) : Outcome (Int × ListHeap α) :=
  heap.moveIterator Cell.next i

def listMutableIteratorPrevious (i : Nat) (heap : ListHeap α) : Outcome (Int × ListHeap α) :=
  heap.moveIterator Cell.previous i

def listMutableIteratorRemove (garbage : Nat → Option α) (i : Nat) (heap : ListHeap α) : Outcome (Int × ListHeap α) := do
  let some (list, current) := heap.iterator? i | return (-1, heap)
  let (list, heap) ← heap.listDetach garbage i list
  let cell ← heap.cells current
  let some node := cell.next.or cell.previous | return (-1, heap)
  let (list, cells) ← unlink list heap.cells current cell
  return (0, heap.put i { list with iterator := some ⟨true, node⟩ } cells)

def listMutableIteratorPrepend (garbage : Nat → Option α) (i : Nat) (payload : Option α) (heap : ListHeap α) :
    Outcome (Int × ListHeap α) := do
  let some (list, current) := heap.iterator? i | return (-1, heap)
  let (list, heap) ← heap.listDetach garbage i list
  let node := heap.next
  let cell ← heap.cells current
  let cells : Cells (Option α) := update heap.cells node <| some ⟨payload, some current, cell.previous⟩
  let list := { list with node_count := list.node_count + 1 }
  match cell.previous with
  | some previous =>
    let cells ← cells.setNext previous (some node)
    let cells ← cells.setPrevious current (some node)
    return (0, { heap with next := heap.next + 1 }.put i list cells)
  | none          =>
    let cells ← cells.setPrevious current (some node)
    return (0, { heap with next := heap.next + 1 }.put i { list with first := some node, list := some node } cells)

def listMutableIteratorAppend (garbage : Nat → Option α) (i : Nat) (payload : Option α) (heap : ListHeap α) :
    Outcome (Int × ListHeap α) := do
  let some (list, current) := heap.iterator? i | return (-1, heap)
  let (list, heap) ← heap.listDetach garbage i list
  let node := heap.next
  let cell ← heap.cells current
  let cells : Cells (Option α) := update heap.cells node <| some ⟨payload, cell.next, some current⟩
  let list := { list with node_count := list.node_count + 1 }
  match cell.next with
  | some next =>
    let cells ← cells.setPrevious next (some node)
    let cells ← cells.setNext current (some node)
    return (0, { heap with next := heap.next + 1 }.put i list cells)
  | none      =>
    let cells ← cells.setNext current (some node)
    return (0, { heap with next := heap.next + 1 }.put i { list with last := some node } cells)

end ListHeap

-- The calls, with the list that they are about.
inductive ListCall (α : Type)
  | new (compare : Option (α → α → Int)) (copy : Option (Nat → α → α))
  | copy (origin : Nat)
  | prepend (list : Nat) (payload : Option α)
  | append (list : Nat) (payload : Option α)
  | remove (list : Nat) (payload : Option α)
  | iteratorGet (list : Nat)
  | iteratorNext (list : Nat)
  | iteratorPrevious (list : Nat)
  | iteratorRemove (list : Nat)
  | iteratorPrepend (list : Nat) (payload : Option α)
  | iteratorAppend (list : Nat) (payload : Option α)

def ListHeap.step [DecidableEq α] (garbage : Nat → Option α) (heap : ListHeap α) : ListCall α → Outcome (ListHeap α)
  | .new compare copy          => some <| heap.listNew compare copy
  | .copy origin               => some (heap.listCopy origin).2
  | .prepend list payload      => (heap.listPrepend garbage list payload).map Prod.snd
  | .append list payload       => (heap.listAppend garbage list payload).map Prod.snd
  | .remove list payload       => (heap.listRemove garbage list payload).map Prod.snd
  | .iteratorGet list          => some <| heap.listMutableIteratorGet list
  | .iteratorNext list         => (heap.listMutableIteratorNext list).map Prod.snd
  | .iteratorPrevious list     => (heap.listMutableIteratorPrevious list).map Prod.snd
  | .iteratorRemove list       => (heap.listMutableIteratorRemove garbage list).map Prod.snd
  | .iteratorPrepend list payload => (heap.listMutableIteratorPrepend garbage list payload).map Prod.snd
  | .iteratorAppend list payload  => (heap.listMutableIteratorAppend garbage list payload).map Prod.snd

end CfEngine.Libutils
