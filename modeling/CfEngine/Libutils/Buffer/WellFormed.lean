import CfEngine.Library.Run
import CfEngine.Libutils.Buffer

namespace CfEngine.Libutils

open Function (update)

-- The length of the string at the start of the bytes.
def Strlen (bytes : Nat → Char) (n : Nat) : Prop :=
  bytes n = '\x00' ∧ ∀ k < n, bytes k ≠ '\x00'

-- What a reader sees of the buffer is well formed.
structure Buffer.IsOk (buffer : Buffer) (bytes : Nat → Char) : Prop where
  used_lt : buffer.used < buffer.capacity
  strlen  : buffer.mode = .cstring → Strlen bytes buffer.used

structure Buffer.Fits (buffer : Buffer) : Prop where
  memory_cap : buffer.memory_cap = defaultMemoryCap
  used_le    : buffer.used ≤ defaultMemoryCap
  capacity   : buffer.capacity ≤ defaultMemoryCap + 1

namespace BufferHeap

def AllOk (heap : BufferHeap) : Prop :=
  ∀ i buffer, heap.buffers i = some buffer → buffer.IsOk (heap.bytes buffer.buffer)

def OthersOk (heap : BufferHeap) (i : Nat) : Prop :=
  ∀ j buffer, j ≠ i → heap.buffers j = some buffer → buffer.IsOk (heap.bytes buffer.buffer)

def holds (heap : BufferHeap) (i : Nat) : Option Nat :=
  (heap.buffers i).map Buffer.ref_count

-- The addresses are in use, the counts know the buffers, and bytes are shared by the users of one count only.
structure Sound (heap : BufferHeap) : Prop where
  lt_next : ∀ {i buffer}, heap.buffers i = some buffer →
    i < heap.next ∧ buffer.buffer < heap.next ∧ buffer.ref_count < heap.next
  sharing : Sharing heap.holds heap.refCounts
  shared  : ∀ {i j b c}, heap.buffers i = some b → heap.buffers j = some c → b.buffer = c.buffer →
    b.ref_count = c.ref_count
  fits    : ∀ {i buffer}, heap.buffers i = some buffer → buffer.Fits

-- No other buffer has the bytes at the address.
def Alone (heap : BufferHeap) (i address : Nat) : Prop :=
  ∀ {j c}, j ≠ i → heap.buffers j = some c → c.buffer ≠ address

section

variable {heap heap' : BufferHeap} {i j : Nat} {b b' c : Buffer} {bytes bytes' : Nat → Char} {garbage : Garbage}

theorem holds_eq (hb : heap.buffers i = some b) : heap.holds i = some b.ref_count := by
  rw [holds, hb]
  rfl

theorem holds_put : (heap.put i b bytes).holds = update heap.holds i (some b.ref_count) := by
  funext j
  by_cases hj : j = i
  case pos => simp [holds, put, hj]
  case neg => simp [holds, put, hj]

theorem Sound.holds_ne {n : Nat} (h : Sound heap) (hn : heap.next ≤ n) : heap.holds j ≠ some n := by
  intro hj
  have ⟨c, hc, hr⟩ := Option.map_eq_some_iff.mp hj
  have hl := (h.lt_next hc).right.right
  omega

theorem Sound.buffers_eq_none {n : Nat} (h : Sound heap) (hn : heap.next ≤ n) : heap.buffers n = none := by
  cases hb : heap.buffers n
  case none   => rfl
  case some b =>
    have hl := (h.lt_next hb).left
    omega

theorem Sound.alone_of_le {n : Nat} (h : Sound heap) (hn : heap.next ≤ n) : heap.Alone i n := by
  intro j c _ hc he
  have hl := (h.lt_next hc).right.left
  omega

theorem Sound.alone (h : Sound heap) (hb : heap.buffers i = some b)
    (hs : ¬(heap.refCounts b.ref_count).isShared = true) : heap.Alone i b.buffer := by
  intro j c hj hc he
  apply hs
  rw [h.sharing.isShared_iff <| holds_eq hb]
  exact ⟨j, hj, h.shared hc hb he ▸ holds_eq hc⟩

-- A buffer whose bytes are its own is put in the place of one, or added.
theorem Sound.put (h : Sound heap) (hb : heap'.buffers = heap.buffers) (hn : heap.next ≤ heap'.next)
    (hi : i < heap'.next ∧ b.buffer < heap'.next ∧ b.ref_count < heap'.next)
    (hs : Sharing (update heap.holds i (some b.ref_count)) heap'.refCounts) (ha : heap.Alone i b.buffer)
    (hf : b.Fits) : Sound (heap'.put i b bytes) := by
  have hput (j) : (heap'.put i b bytes).buffers j = if j = i then some b else heap.buffers j := by
    simp [BufferHeap.put, hb, Function.update_apply]
  constructor
  case lt_next =>
    intro j c hc
    rw [hput] at hc
    split at hc
    case isTrue hj  => cases hc; exact hj ▸ hi
    case isFalse hj =>
      have ⟨hj, hc, hr⟩ := h.lt_next hc
      exact ⟨hj.trans_le hn, hc.trans_le hn, hr.trans_le hn⟩
  case sharing =>
    have hh : heap'.holds = heap.holds := funext fun j => congrArg (fun f => (f j).map Buffer.ref_count) hb
    rw [holds_put, hh]
    exact hs
  case shared =>
    intro j k c d hc hd he
    rw [hput] at hc hd
    split at hc <;> split at hd
    case isTrue.isTrue              => cases hc; cases hd; rfl
    case isTrue.isFalse _ hk        => cases hc; exact absurd he.symm <| ha hk hd
    case isFalse.isTrue hj _        => cases hd; exact absurd he <| ha hj hc
    case isFalse.isFalse            => exact h.shared hc hd he
  case fits =>
    intro j c hc
    rw [hput] at hc
    split at hc
    case isTrue  => cases hc; exact hf
    case isFalse => exact h.fits hc

theorem allOk_put (h : heap.OthersOk i) (hb : heap'.buffers = heap.buffers) (hbytes : heap'.bytes = heap.bytes)
    (ha : heap.Alone i b.buffer) (hok : b.IsOk bytes) : (heap'.put i b bytes).AllOk := by
  intro j c hc
  by_cases hj : j = i
  case pos =>
    have he : some b = some c := by simpa [BufferHeap.put, hj] using hc
    cases he
    simpa [BufferHeap.put] using hok
  case neg =>
    have hc : heap.buffers j = some c := by simpa [BufferHeap.put, hj, hb] using hc
    simpa [BufferHeap.put, ha hj hc, hbytes] using h _ _ hj hc

-- A buffer that keeps its bytes.
def setBuffer (heap : BufferHeap) (i : Nat) (b : Buffer) : BufferHeap :=
  { heap with buffers := update heap.buffers i (some b) }

theorem setBuffer_buffers : (heap.setBuffer i b).buffers j = if j = i then some b else heap.buffers j := by
  simp [setBuffer, Function.update_apply]

theorem Sound.setBuffer (h : Sound heap) (hb : heap.buffers i = some b) (he : b'.buffer = b.buffer)
    (hr : b'.ref_count = b.ref_count) (hf : b'.Fits) : Sound (heap.setBuffer i b') := by
  have hholds : (heap.setBuffer i b').holds = heap.holds := by
    funext j
    rw [holds, holds, setBuffer_buffers]
    split
    case isTrue hj  => rw [hj, hb, Option.map_some, Option.map_some, hr]
    case isFalse hj => rfl
  have hget {j c} (hc : (heap.setBuffer i b').buffers j = some c) :
      ∃ d, heap.buffers j = some d ∧ d.buffer = c.buffer ∧ d.ref_count = c.ref_count := by
    rw [setBuffer_buffers] at hc
    split at hc
    case isTrue hj  => cases hc; exact ⟨b, hj ▸ hb, he.symm, hr.symm⟩
    case isFalse hj => exact ⟨c, hc, rfl, rfl⟩
  constructor
  case lt_next =>
    intro j c hc
    have ⟨d, hd, hde, hdr⟩ := hget hc
    exact hde ▸ hdr ▸ h.lt_next hd
  case sharing => exact hholds ▸ h.sharing
  case shared =>
    intro j k c d hc hd hcd
    have ⟨c', hc', hce, hcr⟩ := hget hc
    have ⟨d', hd', hde, hdr⟩ := hget hd
    exact hcr.symm.trans <| (h.shared hc' hd' <| hce.trans <| hcd.trans hde.symm).trans hdr
  case fits =>
    intro j c hc
    rw [setBuffer_buffers] at hc
    split at hc
    case isTrue  => cases hc; exact hf
    case isFalse => exact h.fits hc

theorem allOk_setBuffer (h : heap.AllOk) (hok : b'.IsOk (heap.bytes b'.buffer)) :
    (heap.setBuffer i b').AllOk := by
  intro j c hc
  rw [setBuffer_buffers] at hc
  split at hc
  case isTrue  => cases hc; exact hok
  case isFalse => exact h _ _ hc

-- A buffer that has left the bytes that it has shared.
theorem Sound.relocate (h : Sound heap) (hb : heap.buffers i = some b)
    (hs : (heap.refCounts b.ref_count).isShared = true) {used : Nat} (hu : used ≤ defaultMemoryCap) :
    ∃ old, (heap.refCounts b.ref_count).detach i = some old ∧
      Sound (heap.relocate i b old used bytes).2 := by
  have ⟨old, hd, hsharing⟩ := h.sharing.detach (holds_eq hb)
    (fun j => h.holds_ne <| Nat.le_succ _) hs
  have ⟨hi, _, _⟩ := h.lt_next hb
  have hf := h.fits hb
  refine ⟨old, hd, h.put rfl ?_ ?_ hsharing (h.alone_of_le <| Nat.le_refl _) ⟨hf.memory_cap, hu, hf.capacity⟩⟩
  · exact Nat.le_add_right ..
  · exact ⟨by show i < heap.next + 2; omega, by show heap.next < heap.next + 2; omega,
      by show heap.next + 1 < heap.next + 2; omega⟩

-- What the buffer and the memory are once the bytes are its own.
structure Detaches (heap : BufferHeap) (i : Nat) (b : Buffer) (heap' : BufferHeap) (b' : Buffer) :
    Prop where
  sound    : Sound heap'
  others   : heap'.OthersOk i
  buffers  : heap'.buffers i = some b'
  alone    : heap'.Alone i b'.buffer
  mode     : b'.mode = b.mode
  capacity : b'.capacity = b.capacity
  cap      : b'.memory_cap = b.memory_cap
  used     : b'.used = b.used
  bytes    : ∀ k < b.used, heap'.bytes b'.buffer k = heap.bytes b.buffer k

theorem terminatorIndex_eq {used : Nat} (h : ∀ k < used, bytes k ≠ '\x00') : terminatorIndex bytes used = used := by
  have hn : (List.range used).find? (fun i => decide (bytes i = '\x00')) = none := by
    simpa using h
  rw [terminatorIndex, hn, Option.getD_none]

theorem detached_spec (garbage : Garbage) (h : Sound heap) (hok : heap.AllOk) (hb : heap.buffers i = some b) :
    ∃ b' heap', heap.detached garbage i b = some (b', heap') ∧ Detaches heap i b heap' b' := by
  rw [detached]
  split
  case isTrue hs  => exact ⟨b, heap, rfl, h, fun _ _ _ => hok _ _, hb, h.alone hb hs, rfl, rfl, rfl, rfl, fun _ _ => rfl⟩
  case isFalse hs =>
    have hs := Decidable.not_not.mp hs
    have hbok := hok _ _ hb
    have hused : (if b.mode = .cstring then terminatorIndex (heap.bytes b.buffer) b.used else b.used) = b.used := by
      split
      case isTrue hm  => exact terminatorIndex_eq (hbok.strlen hm).right
      case isFalse hm => rfl
    have ⟨old, hd, hsound⟩ := @Sound.relocate _ _ _
      (fun k => if k < b.used ∧ k ≤ b.used then heap.bytes b.buffer k else garbage k) h hb hs b.used (h.fits hb).used_le
    rw [hd]
    simp only [hused]
    refine ⟨_, _, rfl, hsound, ?_, ?_, ?_, rfl, rfl, rfl, rfl, ?_⟩
    case refine_1 =>
      intro j c hj hc
      have hc : heap.buffers j = some c := by simpa [BufferHeap.relocate, BufferHeap.put, hj] using hc
      have ha : c.buffer ≠ heap.next := h.alone_of_le (Nat.le_refl _) hj hc
      simpa [BufferHeap.put, ha] using hok _ _ hc
    case refine_2 => simp [BufferHeap.relocate, BufferHeap.put]
    case refine_3 =>
      intro j c hj hc
      have hc : heap.buffers j = some c := by simpa [BufferHeap.relocate, BufferHeap.put, hj] using hc
      exact h.alone_of_le (Nat.le_refl _) hj hc
    case refine_4 =>
      intro k hk
      simp [BufferHeap.put, hk, Nat.le_of_lt hk]

end

end BufferHeap
end CfEngine.Libutils
