import CfEngine.Libpromises.EnvContext
import CfEngine.Libutils.Strings
import CfEngine.Libutils.RefCount

namespace CfEngine.Libutils

open Function (update)

inductive BufferBehavior
  | cstring
  | bytearray
  deriving DecidableEq

def defaultBufferSize : Nat := 4096

-- The pointers are the addresses of the bytes and of the count of their owners.
structure Buffer where
  buffer     : Nat
  mode       : BufferBehavior
  capacity   : Nat
  used       : Nat
  memory_cap : Nat
  ref_count  : Nat

-- The memory of the buffers, with the next address that is not in use.
structure BufferHeap where
  next      : Nat
  bytes     : Nat → Nat → Char
  refCounts : Nat → RefCount
  buffers   : Nat → Option Buffer

-- The bytes that are found in memory that has not been written to.
abbrev Garbage := Nat → Char

-- The length of the bytes is an unsigned number.
abbrev Bytes := { bytes : List Char // bytes.length < 2 ^ 32 }

def unsigned (n : Nat) : Nat := n % 2 ^ 32

-- An unsigned number that is returned as an `int`.
def signed (n : Nat) : Int :=
  (n + 2 ^ 31) % 2 ^ 32 - 2 ^ 31

-- The position of the first terminator, or the end if it comes earlier.
def terminatorIndex (bytes : Nat → Char) (used : Nat) : Nat :=
  (List.range used).find? (fun i => bytes i = '\x00') |>.getD used

-- The capacity that has room for the length and a terminator, unless it is too large for its type.
def requiredCapacity (length : Nat) : Nat :=
  unsigned <| (length / defaultBufferSize + 1) * defaultBufferSize

-- The buffer and its bytes, in a larger part of the memory if there is not enough space for the length.
def grown (garbage : Garbage) (length : Nat) (buffer : Buffer) (bytes : Nat → Char) : Buffer × (Nat → Char) :=
  if buffer.capacity ≤ length then
    ({ buffer with capacity := requiredCapacity length }, fun i => if i < buffer.capacity then bytes i else garbage i)
  else
    (buffer, bytes)

namespace BufferHeap

def empty : BufferHeap :=
  ⟨0, fun _ _ => '\x00', fun _ => RefCount.new, fun _ => none⟩

def put (heap : BufferHeap) (i : Nat) (buffer : Buffer) (bytes : Nat → Char) : BufferHeap :=
  { heap with
    bytes   := update heap.bytes buffer.buffer bytes
    buffers := update heap.buffers i (some buffer) }

-- A buffer with bytes of its own, which comes with the first owner of them.
def create (heap : BufferHeap) (capacity used : Nat) (bytes : Nat → Char) : BufferHeap :=
  let i := heap.next
  let buffer : Buffer := ⟨heap.next + 1, .cstring, capacity, used, defaultMemoryCap, heap.next + 2⟩
  { heap with
    next      := heap.next + 3
    refCounts := update heap.refCounts buffer.ref_count (RefCount.new.attach i) } |>.put i buffer bytes

def bufferNew (garbage : Garbage) (heap : BufferHeap) : Option Nat × BufferHeap :=
  (some heap.next, heap.create defaultBufferSize 0 <| update garbage 0 '\x00')

def bufferNewFrom (garbage : Garbage) (data : Bytes) (heap : BufferHeap) : Option Nat × BufferHeap :=
  let length := data.val.length
  if defaultMemoryCap < length then
    (none, heap)
  else
    let capacity := if defaultBufferSize ≤ length then requiredCapacity length else defaultBufferSize
    let total := (data.val.takeWhile (· ≠ '\x00')).length
    let bytes := update (fun i => if i < total then data.val.getD i '\x00' else garbage i) total '\x00'
    (some heap.next, heap.create capacity total bytes)

-- The destination is what the pointer has held before. A buffer that is not there stands for NULL here and below.
def bufferCopy (source : Nat) (destination : Option Nat) (heap : BufferHeap) : Int × BufferHeap :=
  match heap.buffers source with
  | none        => (-1, heap)
  | some buffer =>
    if destination = some source then
      (-1, heap)
    else
      (0, { heap with
        next      := heap.next + 1
        refCounts := update heap.refCounts buffer.ref_count <| (heap.refCounts buffer.ref_count).attach heap.next
        buffers   := update heap.buffers heap.next <| some buffer })

-- The buffer has the bytes for its own, with a new count, and `old` is left of the count that it has shared.
def relocate (i : Nat) (buffer : Buffer) (old : RefCount) (used : Nat) (bytes : Nat → Char) (heap : BufferHeap) :
    Buffer × BufferHeap :=
  let buffer' := { buffer with buffer := heap.next, used := used, ref_count := heap.next + 1 }
  let heap :=
    { heap with
      next      := heap.next + 2
      refCounts := update (update heap.refCounts buffer.ref_count old) buffer'.ref_count (RefCount.new.attach i) }
  (buffer', heap.put i buffer' bytes)

-- The part of `BufferSet` and `BufferAppend` that gives a buffer bytes of its own. There is no result where the
-- buffer cannot be detached from its count.
def detached (garbage : Garbage) (i : Nat) (buffer : Buffer) (heap : BufferHeap) : Option (Buffer × BufferHeap) :=
  if ¬(heap.refCounts buffer.ref_count).isShared then
    some (buffer, heap)
  else
    match (heap.refCounts buffer.ref_count).detach i with
    | none     => none
    | some old =>
      let bytes := heap.bytes buffer.buffer
      let used := if buffer.mode = .cstring then terminatorIndex bytes buffer.used else buffer.used
      some <| heap.relocate i buffer old used fun k => if k < buffer.used ∧ k ≤ used then bytes k else garbage k

-- The loop that copies the bytes to the end of the part that is kept, and the terminator after it. It does not end
-- at a terminator in the bytes, but the mode changes there. It is undefined to write past the capacity.
def write (i : Nat) (buffer : Buffer) (content : Nat → Char) (used : Nat) (bytes : Bytes) (heap : BufferHeap) :
    Outcome (Int × BufferHeap) :=
  let content := fun k => if used ≤ k then bytes.val.getD (k - used) (content k) else content k
  let total := used + bytes.val.length
  let buffer := { buffer with used := total, mode := if '\x00' ∈ bytes.val then .cstring else buffer.mode }
  if buffer.capacity < total then
    none
  else if buffer.mode = .bytearray then
    some (signed total, heap.put i buffer content)
  else if buffer.capacity = total then
    none
  else
    some (signed total, heap.put i buffer <| update content total '\x00')

def bufferSet (garbage : Garbage) (i : Nat) (bytes : Bytes) (heap : BufferHeap) : Outcome (Int × BufferHeap) :=
  match heap.buffers i with
  | none        => some (-1, heap)
  | some buffer =>
    let length := bytes.val.length
    if buffer.memory_cap < length then
      some (-1, heap)
    else
      match heap.detached garbage i buffer with
      | none                => some (-1, heap)
      | some (buffer, heap) =>
        let (buffer, content) := grown garbage length buffer (heap.bytes buffer.buffer)
        heap.write i buffer content 0 bytes

def bufferAppend (garbage : Garbage) (i : Nat) (bytes : Bytes) (heap : BufferHeap) : Outcome (Int × BufferHeap) :=
  match heap.buffers i with
  | none        => some (-1, heap)
  | some buffer =>
    let length := bytes.val.length
    if buffer.memory_cap < unsigned (length + buffer.used) then
      some (-1, heap)
    else
      match heap.detached garbage i buffer with
      | none                => some (-1, heap)
      | some (buffer, heap) =>
        let used := buffer.used
        let (buffer, content) := grown garbage (unsigned <| used + length) buffer (heap.bytes buffer.buffer)
        heap.write i buffer content used bytes

-- A buffer that is shared leaves its bytes without a copy of them.
def bufferZero (garbage : Garbage) (i : Nat) (heap : BufferHeap) : BufferHeap :=
  match heap.buffers i with
  | none        => heap
  | some buffer =>
    if (heap.refCounts buffer.ref_count).isShared then
      let old := ((heap.refCounts buffer.ref_count).detach i).getD (heap.refCounts buffer.ref_count)
      (heap.relocate i buffer old 0 <| update garbage 0 '\x00').2
    else
      heap.put i { buffer with used := 0 } <| update (heap.bytes buffer.buffer) 0 '\x00'

def bufferSetMode (i : Nat) (mode : BufferBehavior) (heap : BufferHeap) : BufferHeap :=
  match heap.buffers i with
  | none        => heap
  | some buffer =>
    let bytes := heap.bytes buffer.buffer
    let used := if mode = .cstring then terminatorIndex bytes buffer.used else buffer.used
    { heap with buffers := update heap.buffers i <| some { buffer with mode := mode, used := used } }

end BufferHeap

inductive BufferCall
  | new
  | newFrom (data : Bytes)
  | copy (source : Nat) (destination : Option Nat)
  | set (buffer : Nat) (bytes : Bytes)
  | append (buffer : Nat) (bytes : Bytes)
  | zero (buffer : Nat)
  | setMode (buffer : Nat) (mode : BufferBehavior)

def BufferHeap.step (garbage : Garbage) (heap : BufferHeap) : BufferCall → Outcome BufferHeap
  | .new                     => some (heap.bufferNew garbage).2
  | .newFrom data            => some (heap.bufferNewFrom garbage data).2
  | .copy source destination => some (heap.bufferCopy source destination).2
  | .set buffer bytes        => (heap.bufferSet garbage buffer bytes).map Prod.snd
  | .append buffer bytes     => (heap.bufferAppend garbage buffer bytes).map Prod.snd
  | .zero buffer             => some <| heap.bufferZero garbage buffer
  | .setMode buffer mode     => some <| heap.bufferSetMode buffer mode

end CfEngine.Libutils
