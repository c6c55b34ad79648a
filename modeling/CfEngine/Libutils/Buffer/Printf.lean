import CfEngine.Libutils.Buffer.Contents

namespace CfEngine.Libutils

open Function (update)

-- A text that is printed. Its length is an `int`.
abbrev Printed := { text : List Char // text.length < 2 ^ 31 }

-- The bytes after a text has been printed into the given number of them. Its length is returned in full.
def vsnprintf (text : List Char) (size : Nat) (bytes : Nat → Char) : Nat → Char := fun k =>
  let last := min text.length (size - 1)
  if size = 0 ∨ last < k then bytes k else if k = last then '\x00' else text.getD k '\x00'

namespace BufferHeap

def bufferPrintf (garbage : Garbage) (i : Nat) (text : Printed) (heap : BufferHeap) : Int × BufferHeap :=
  match heap.buffers i with
  | none        => (-1, heap)
  | some buffer =>
    match heap.detached garbage i buffer with
    | none                => (-1, heap)
    | some (buffer, heap) =>
      let printed := text.val.length
      let content := vsnprintf text.val buffer.capacity (heap.bytes buffer.buffer)
      if buffer.capacity ≤ printed then
        if buffer.memory_cap < printed then
          (-1, heap.put i buffer content)
        else
          let (buffer, content) := grown garbage printed buffer content
          (printed, heap.put i { buffer with used := printed } <| vsnprintf text.val buffer.capacity content)
      else
        (printed, heap.put i { buffer with used := printed } content)

end BufferHeap

-- The calls that change what is in a buffer.
inductive BufferWrite
  | set (bytes : Bytes)
  | append (bytes : Bytes)
  | printf (text : Printed)

namespace BufferWrite

def run (garbage : Garbage) (i : Nat) (heap : BufferHeap) : BufferWrite → Outcome (Int × BufferHeap)
  | set bytes    => heap.bufferSet garbage i bytes
  | append bytes => heap.bufferAppend garbage i bytes
  | printf text  => some <| heap.bufferPrintf garbage i text

end BufferWrite

-- The fields have the values that their types allow for.
structure Buffer.Bounded (b : Buffer) : Prop where
  capacity   : b.capacity < 2 ^ 32
  used       : b.used < 2 ^ 32
  memory_cap : b.memory_cap < 2 ^ 32

namespace BufferHeap

-- The bytes that are seen through the buffer, up to the terminator if there is one.
def data (heap : BufferHeap) (b : Buffer) : List Char :=
  let bytes := heap.bytes b.buffer
  (List.range (if b.mode = .cstring then terminatorIndex bytes b.used + 1 else b.used)).map bytes

-- What is seen of a buffer.
def view (heap : BufferHeap) (i : Nat) : Option (BufferBehavior × Nat × List Char) :=
  (heap.buffers i).map fun b => (b.mode, b.used, heap.data b)

-- The addresses are in use, the counts know the buffers, and bytes are shared by the users of one count only.
structure Separate (heap : BufferHeap) : Prop where
  lt_next : ∀ {i b}, heap.buffers i = some b → i < heap.next ∧ b.buffer < heap.next ∧ b.ref_count < heap.next
  sharing : Sharing heap.holds heap.refCounts
  shared  : ∀ {i j b c}, heap.buffers i = some b → heap.buffers j = some c → b.buffer = c.buffer →
    b.ref_count = c.ref_count

variable {heap heap' : BufferHeap} {i j used : Nat} {b b' c : Buffer} {content : Nat → Char} {bytes : Bytes}
  {garbage : Garbage} {text : Printed}

theorem Sound.separate (h : Sound heap) : Separate heap :=
  ⟨h.lt_next, h.sharing, h.shared⟩

-- What a write returns is never the sign of an error.
theorem write_ne_error {length : Nat} {r : Int × BufferHeap} (hb : b.capacity < 2 ^ 32)
    (hl : length = unsigned (used + bytes.val.length))
    (h : heap.write i (grown garbage length b content).1 (grown garbage length b content).2 used bytes = some r) :
    r.1 ≠ -1 := by
  have hcap : used + bytes.val.length ≤ (grown garbage length b content).1.capacity ∧
      r.1 = signed (used + bytes.val.length) := by
    rw [write] at h
    generalize (if '\x00' ∈ bytes.val then BufferBehavior.cstring else (grown garbage length b content).1.mode) = m at h
    dsimp only at h
    split at h
    case isTrue    => exact absurd h (Option.some_ne_none r).symm
    case isFalse hc =>
      have hc := Nat.not_lt.mp hc
      split at h
      case isTrue  => exact ⟨hc, by rw [← Option.some.inj h]⟩
      case isFalse =>
        split at h
        case isTrue  => exact absurd h (Option.some_ne_none r).symm
        case isFalse => exact ⟨hc, by rw [← Option.some.inj h]⟩
  intro hr
  have hs := hcap.right.symm.trans hr
  have hc := hcap.left
  rw [grown] at hc
  split at hc
  case isTrue  =>
    simp only [requiredCapacity, unsigned, signed, defaultBufferSize] at hl hs hc
    omega
  case isFalse =>
    simp only [unsigned, signed] at hl hs
    omega

theorem bufferSet_failed (hs : Sharing heap.holds heap.refCounts) (hb : ∀ b, heap.buffers i = some b → b.Bounded)
    (h : heap.bufferSet garbage i bytes = some (-1, heap')) : heap' = heap := by
  rw [bufferSet] at h
  cases hbi : heap.buffers i
  case none   =>
    rw [hbi] at h
    exact (Prod.mk.inj <| Option.some.inj h).right.symm
  case some b =>
    rw [hbi] at h
    dsimp only at h
    split at h
    case isTrue  => exact (Prod.mk.inj <| Option.some.inj h).right.symm
    case isFalse =>
      obtain ⟨b', heap₁, hd, _, hc, _⟩ := detached_contents garbage hs hbi
      rw [hd] at h
      refine absurd rfl <| write_ne_error (hc ▸ (hb b hbi).capacity) ?_ h
      rw [Nat.zero_add]
      exact (Nat.mod_eq_of_lt bytes.property).symm

theorem bufferAppend_failed (hs : Sharing heap.holds heap.refCounts) (hb : ∀ b, heap.buffers i = some b → b.Bounded)
    (h : heap.bufferAppend garbage i bytes = some (-1, heap')) : heap' = heap := by
  rw [bufferAppend] at h
  cases hbi : heap.buffers i
  case none   =>
    rw [hbi] at h
    exact (Prod.mk.inj <| Option.some.inj h).right.symm
  case some b =>
    rw [hbi] at h
    dsimp only at h
    split at h
    case isTrue  => exact (Prod.mk.inj <| Option.some.inj h).right.symm
    case isFalse =>
      obtain ⟨b', heap₁, hd, _, hc, _⟩ := detached_contents garbage hs hbi
      rw [hd] at h
      exact absurd rfl <| write_ne_error (hc ▸ (hb b hbi).capacity) rfl h

-- A buffer with bytes of its own, in which only it has changed.
structure Detached (heap : BufferHeap) (i : Nat) (b : Buffer) (heap' : BufferHeap) (b' : Buffer) : Prop where
  mode       : b'.mode = b.mode
  capacity   : b'.capacity = b.capacity
  memory_cap : b'.memory_cap = b.memory_cap
  used       : b'.used = if (heap.refCounts b.ref_count).isShared ∧ b.mode = .cstring then
    terminatorIndex (heap.bytes b.buffer) b.used else b.used
  others     : ∀ j ≠ i, heap'.buffers j = heap.buffers j
  bytes      : ∀ j ≠ i, ∀ c, heap.buffers j = some c → c.buffer ≠ b'.buffer ∧
    heap'.bytes c.buffer = heap.bytes c.buffer

theorem detached_separate (garbage : Garbage) (h : Separate heap) (hb : heap.buffers i = some b) :
    ∃ b' heap', heap.detached garbage i b = some (b', heap') ∧ Detached heap i b heap' b' := by
  rw [detached]
  split
  case isTrue hs  =>
    have hs := eq_false_of_ne_true hs
    refine ⟨b, heap, rfl, rfl, rfl, rfl, by simp [hs], fun _ _ => rfl, fun j hj c hc => ⟨fun he => ?_, rfl⟩⟩
    have hshared := (h.sharing.isShared_iff <| holds_eq hb).mpr ⟨j, hj, h.shared hc hb he ▸ holds_eq hc⟩
    exact absurd hshared <| ne_true_of_eq_false hs
  case isFalse hs =>
    have hs := Decidable.not_not.mp hs
    rw [h.sharing.detach_eq (holds_eq hb) hs]
    refine ⟨_, _, rfl, rfl, rfl, rfl, ?_, fun j hj => ?_, fun j hj c hc => ?_⟩
    · simp [hs]
    · simp [put, hj]
    · have hne : c.buffer ≠ heap.next := Nat.ne_of_lt (h.lt_next hc).right.left
      exact ⟨hne, by simp [put, hne]⟩

-- What is seen after the buffer has got other bytes.
theorem Detached.view_put (hd : Detached heap i b heap' b') (j : Nat) :
    (heap'.put i b' content).view j =
      if j = i then some (b'.mode, b'.used, (heap'.put i b' content).data b') else heap.view j := by
  by_cases hj : j = i
  case pos => simp [view, put, hj]
  case neg =>
    rw [if_neg hj, view, view]
    have hbuffers : (heap'.put i b' content).buffers j = heap.buffers j := by
      simp [put, hj, hd.others j hj]
    rw [hbuffers]
    cases hc : heap.buffers j
    case none   => rfl
    case some c =>
      obtain ⟨hne, hbytes⟩ := hd.bytes j hj c hc
      have hput : (heap'.put i b' content).bytes c.buffer = heap.bytes c.buffer := by
        simp [put, hne, hbytes]
      simp only [Option.map_some, data, hput]

def Unchanged (heap heap' : BufferHeap) : Prop :=
  ∀ j, heap'.view j = heap.view j

theorem terminatorIndex_congr {f g : Nat → Char} {n : Nat} (h : ∀ k ≤ terminatorIndex f n, g k = f k) :
    terminatorIndex g n = terminatorIndex f n := by
  cases terminatorIndex_cases f n
  case inr hf =>
    rw [hf.left] at h ⊢
    exact terminatorIndex_eq fun k hk => h k (Nat.le_of_lt hk) ▸ hf.right k hk
  case inl hf =>
    have ⟨k, hk, he, hterm, hne⟩ := hf
    rw [he] at h ⊢
    have hg : g k = '\x00' := (h k <| Nat.le_refl k).trans hterm
    have hbefore : ∀ l < k, g l ≠ '\x00' := fun l hl => h l (Nat.le_of_lt hl) ▸ hne l hl
    cases terminatorIndex_cases g n
    case inr hg' => exact absurd hg <| hg'.right k hk
    case inl hg' =>
      have ⟨l, _, hl, hlterm, hlne⟩ := hg'
      rw [hl]
      apply Nat.le_antisymm
      · exact Nat.not_lt.mp fun hlt => hlne k hlt hg
      · exact Nat.not_lt.mp fun hlt => hbefore l hlt hlterm

theorem map_range_eq_iff {f g : Nat → Char} {m n : Nat} :
    (List.range m).map g = (List.range n).map f ↔ m = n ∧ ∀ k < n, g k = f k := by
  constructor
  case mp  =>
    intro h
    have hl : m = n := by simpa using congrArg List.length h
    refine ⟨hl, fun k hk => ?_⟩
    have hget := congrArg (·[k]?) h
    simpa [hl, hk] using hget
  case mpr =>
    intro ⟨hm, h⟩
    rw [hm]
    exact List.map_congr_left fun k hk => h k <| List.mem_range.mp hk

-- The printed bytes, for a text that does not fit.
theorem map_range_prefix_iff {f : Nat → Char} {n capacity : Nat} (hn : n ≤ capacity) (hl : capacity ≤ text.val.length) :
    (List.range n).map f <+: text.val.take (capacity - 1) ++ ['\x00'] ↔
      ∀ k < n, vsnprintf text.val capacity content k = f k := by
  have hlast : min text.val.length (capacity - 1) = capacity - 1 := by omega
  rw [List.prefix_iff_getElem?]
  simp only [List.length_map, List.length_range, List.getElem_map, List.getElem_range]
  apply forall₂_congr
  intro k hk
  have hget : (text.val.take (capacity - 1) ++ ['\x00'])[k]? = some (vsnprintf text.val capacity content k) := by
    have hc : ¬(capacity = 0 ∨ capacity - 1 < k) := by omega
    rw [vsnprintf]
    rw [hlast, if_neg hc, List.getElem?_append, List.length_take, Nat.min_comm, hlast]
    by_cases he : k = capacity - 1
    case pos => simp [he]
    case neg =>
      have hlt : k < capacity - 1 := by omega
      have hkl : k < text.val.length := by omega
      rw [if_neg he, if_pos hlt, List.getElem?_take_of_lt hlt, List.getD_eq_getElem?_getD,
        List.getElem?_eq_getElem hkl, Option.getD_some]
  rw [hget, Option.some_inj]

-- The text starts with what is there, and nothing is left behind when the buffer gets bytes of its own.
structure Reprints (heap : BufferHeap) (b : Buffer) (text : Printed) : Prop where
  data : heap.data b <+: text.val.take (b.capacity - 1) ++ ['\x00']
  used : (heap.refCounts b.ref_count).isShared → b.mode = .cstring →
    terminatorIndex (heap.bytes b.buffer) b.used = b.used

theorem Detached.used_eq_iff (hd : Detached heap i b heap' b') :
    b'.used = b.used ↔ ((heap.refCounts b.ref_count).isShared → b.mode = .cstring →
      terminatorIndex (heap.bytes b.buffer) b.used = b.used) := by
  rw [hd.used]
  split
  case isTrue h  => exact ⟨fun he _ _ => he, fun he => he h.left h.right⟩
  case isFalse h => exact ⟨fun _ hs hm => absurd ⟨hs, hm⟩ h, fun _ => rfl⟩

-- What is seen of a buffer in which a text has been printed that does not fit.
theorem Detached.data_eq_iff (hd : Detached heap i b heap' b') (hused : b'.used = b.used)
    (hfits : (heap.data b).length ≤ b.capacity) (hl : b.capacity ≤ text.val.length) :
    (heap'.put i b' <| vsnprintf text.val b'.capacity content).data b' = heap.data b ↔
      heap.data b <+: text.val.take (b.capacity - 1) ++ ['\x00'] := by
  rw [data, List.length_map, List.length_range] at hfits
  rw [data, data, hd.mode, hused, hd.capacity]
  simp only [put, Function.update_self]
  rw [(map_range_prefix_iff hfits hl : _ ↔ ∀ k < _, vsnprintf _ _ content k = _), map_range_eq_iff, and_iff_right_iff_imp]
  intro h
  split
  case isTrue hm  =>
    rw [if_pos hm] at h
    rw [terminatorIndex_congr fun k hk => h k <| Nat.lt_succ_of_le hk]
  case isFalse hm => rfl

theorem Detached.unchanged_iff (hd : Detached heap i b heap' b') (hb : heap.buffers i = some b)
    (hfits : (heap.data b).length ≤ b.capacity) (hl : b.capacity ≤ text.val.length) :
    Unchanged heap (heap'.put i b' <| vsnprintf text.val b'.capacity content) ↔ Reprints heap b text := by
  have hview : heap.view i = some (b.mode, b.used, heap.data b) := by rw [view, hb, Option.map_some]
  have hiff : Unchanged heap (heap'.put i b' <| vsnprintf text.val b'.capacity content) ↔
      b'.used = b.used ∧ (heap'.put i b' <| vsnprintf text.val b'.capacity content).data b' = heap.data b := by
    constructor
    case mp  =>
      intro h
      have hi := h i
      rw [hd.view_put, if_pos rfl, hview] at hi
      exact Prod.mk.inj (Prod.mk.inj <| Option.some.inj hi).right
    case mpr =>
      intro ⟨hu, hdata⟩ j
      rw [hd.view_put]
      split
      case isTrue hj  => rw [hj, hview, hd.mode, hu, hdata]
      case isFalse hj => rfl
  rw [hiff]
  constructor
  case mp  => exact fun ⟨hu, h⟩ => ⟨(hd.data_eq_iff hu hfits hl).mp h, hd.used_eq_iff.mp hu⟩
  case mpr =>
    intro h
    have hu := hd.used_eq_iff.mpr h.used
    exact ⟨hu, (hd.data_eq_iff hu hfits hl).mpr h.data⟩

-- The cap is looked at after the first part of the text has been printed.
theorem bufferPrintf_unchanged_iff (garbage : Garbage) (h : Separate heap) (hb : heap.buffers i = some b)
    (hfits : (heap.data b).length ≤ b.capacity) :
    (∀ heap', heap.bufferPrintf garbage i text = (-1, heap') → Unchanged heap heap') ↔
      (b.capacity ≤ text.val.length → b.memory_cap < text.val.length → Reprints heap b text) := by
  have ⟨b', heap₁, hdetached, hd⟩ := detached_separate garbage h hb
  have hprinted {heap' heap₂ : BufferHeap} : ((text.val.length : Int), heap₂) ≠ (-1, heap') := by
    intro he
    have := (Prod.mk.inj he).left
    omega
  rw [bufferPrintf, hb]
  dsimp only
  rw [hdetached]
  dsimp only
  rw [hd.capacity, hd.memory_cap]
  split
  case isFalse hl => exact ⟨fun _ hl' => absurd hl' hl, fun _ _ he => absurd he hprinted⟩
  case isTrue hl  =>
    split
    case isFalse hc => exact ⟨fun _ _ hc' => absurd hc' hc, fun _ _ he => absurd he hprinted⟩
    case isTrue hc  =>
      have hiff : Unchanged heap (heap₁.put i b' <| vsnprintf text.val b'.capacity <| heap₁.bytes b'.buffer) ↔
          Reprints heap b text := hd.unchanged_iff hb hfits hl
      rw [hd.capacity] at hiff
      exact ⟨fun h _ _ => hiff.mp <| h _ rfl, fun h _ he => (Prod.mk.inj he).right ▸ hiff.mpr (h hl hc)⟩

-- The text is kept below the limits, or it starts with what is there.
def Harmless (heap : BufferHeap) (i : Nat) : BufferWrite → Prop
  | .set _       => True
  | .append _    => True
  | .printf text => ∀ b, heap.buffers i = some b → b.capacity ≤ text.val.length → b.memory_cap < text.val.length →
      Reprints heap b text

-- A write that fails has changed nothing, unless it has printed over what is there.
theorem failed_write_unchanged_iff (garbage : Garbage) (i : Nat) (write : BufferWrite) (h : Separate heap)
    (hb : ∀ b, heap.buffers i = some b → b.Bounded ∧ (heap.data b).length ≤ b.capacity) :
    (∀ heap', write.run garbage i heap = some (-1, heap') → Unchanged heap heap') ↔ heap.Harmless i write := by
  have hbounded : ∀ b, heap.buffers i = some b → b.Bounded := fun b hi => (hb b hi).left
  cases write with
  | set bytes    =>
    exact iff_of_true (fun _ he => bufferSet_failed h.sharing hbounded he ▸ fun _ => rfl) trivial
  | append bytes =>
    exact iff_of_true (fun _ he => bufferAppend_failed h.sharing hbounded he ▸ fun _ => rfl) trivial
  | printf text  =>
    simp only [BufferWrite.run, Option.some_inj, Harmless]
    cases hi : heap.buffers i
    case none   =>
      refine iff_of_true (fun heap' he => ?_) nofun
      rw [bufferPrintf, hi] at he
      exact (Prod.mk.inj he).right ▸ fun _ => rfl
    case some b =>
      rw [bufferPrintf_unchanged_iff garbage h hi (hb b hi).right]
      exact ⟨fun h _ he => Option.some.inj he ▸ h, fun h => h b rfl⟩

-- A text that is longer than the cap.
def longText : Printed :=
  ⟨List.replicate 65536 'x', List.length_replicate.trans_lt (by decide)⟩

def longBytes : Bytes :=
  ⟨List.replicate 65536 'x', List.length_replicate.trans_lt (by decide)⟩

theorem length_longText : longText.val.length = 65536 :=
  List.length_replicate

theorem take_longText : longText.val.take (4096 - 1) = 'x' :: (List.replicate 65535 'x').take 4094 := by
  have htext : longText.val = 'x' :: List.replicate 65535 'x' := List.replicate_succ
  rw [htext, List.take_succ_cons]

theorem not_harmless_longText : ¬byteHeap.Harmless 0 (.printf longText) := by
  intro h
  have hdata := (h byteArray rfl (by rw [length_longText]; decide) (by rw [length_longText]; decide)).data
  have hbytes : byteHeap.data byteArray = ['a', '\x00', 'b'] := by decide
  rw [hbytes] at hdata
  dsimp only [byteArray] at hdata
  rw [take_longText, List.cons_append, List.cons_prefix_cons] at hdata
  exact absurd hdata.left (by decide)

-- A print of the text fails and changes the array. To append the text fails and changes nothing.
theorem failed_write_unchanged_iff_bytearray :
    (∃ heap', (BufferWrite.printf longText).run (fun _ => 'g') 0 byteHeap = some (-1, heap') ∧
      ¬Unchanged byteHeap heap') ∧
      ∀ heap', (BufferWrite.append longBytes).run (fun _ => 'g') 0 byteHeap = some (-1, heap') →
        Unchanged byteHeap heap' := by
  have hb : ∀ b, byteHeap.buffers 0 = some b → b.Bounded ∧ (byteHeap.data b).length ≤ b.capacity := by
    rintro _ hb
    cases hb
    exact ⟨⟨by decide, by decide, by decide⟩, by decide⟩
  have h (write : BufferWrite) := failed_write_unchanged_iff (fun _ => 'g') 0 write sound_byteHeap.separate hb
  refine ⟨?_, (h _).mpr trivial⟩
  have hprint := mt (h _).mp not_harmless_longText
  simpa only [not_forall, exists_prop] using hprint

-- It is seen in the buffer that was empty.
theorem not_failed_write_unchanged :
    ¬∀ heap', (BufferWrite.printf longText).run (fun _ => 'g') 0 (bufferNew (fun _ => 'g') empty).2 =
      some (-1, heap') → Unchanged (bufferNew (fun _ => 'g') empty).2 heap' := by
  have hb : (bufferNew (fun _ => 'g') empty).2.buffers 0 = some ⟨1, .cstring, 4096, 0, 65535, 2⟩ := rfl
  have hiff := @bufferPrintf_unchanged_iff _ 0 _ longText (fun _ => 'g')
    (bufferNew_ok sound_empty nofun).left.separate hb (by decide)
  simp only [BufferWrite.run, Option.some_inj]
  rw [hiff, length_longText]
  intro h
  have hdata := (h (by decide) (by decide)).data
  have hnew : (bufferNew (fun _ => 'g') empty).2.data ⟨1, .cstring, 4096, 0, 65535, 2⟩ = ['\x00'] := by decide
  rw [hnew] at hdata
  dsimp only at hdata
  rw [take_longText, List.cons_append, List.cons_prefix_cons] at hdata
  exact absurd hdata.left (by decide)

end BufferHeap
end CfEngine.Libutils
