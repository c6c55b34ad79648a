import Mathlib.Data.List.TakeWhile
import CfEngine.Libutils.Buffer.WellFormed

namespace CfEngine.Libutils

open Function (update)

theorem lt_requiredCapacity {length : Nat} (h : length < 2 ^ 31) : length < requiredCapacity length := by
  simp only [requiredCapacity, unsigned, defaultBufferSize]
  omega

theorem requiredCapacity_le {length : Nat} (h : length ≤ defaultMemoryCap) :
    requiredCapacity length ≤ defaultMemoryCap + 1 := by
  simp only [requiredCapacity, unsigned, defaultBufferSize, defaultMemoryCap] at h ⊢
  omega

namespace BufferHeap

variable {heap heap' : BufferHeap} {i j used : Nat} {b c : Buffer} {content : Nat → Char} {bytes : Bytes}
  {garbage : Garbage}

section

-- A buffer whose bytes are its own, while its other fields change.
structure Owns (heap : BufferHeap) (i : Nat) (b : Buffer) : Prop where
  sound      : Sound heap
  others     : heap.OthersOk i
  buffers    : ∃ c, heap.buffers i = some c ∧ c.buffer = b.buffer ∧ c.ref_count = b.ref_count
  alone      : heap.Alone i b.buffer
  memory_cap : b.memory_cap = defaultMemoryCap
  capacity   : b.capacity ≤ defaultMemoryCap + 1

theorem Owns.put {b' : Buffer} {bytes : Nat → Char} (h : heap.Owns i b) (hb : b'.buffer = b.buffer)
    (hr : b'.ref_count = b.ref_count) (hf : b'.Fits) (hok : b'.IsOk bytes) :
    Sound (heap.put i b' bytes) ∧ (heap.put i b' bytes).AllOk := by
  have ⟨c, hc, hcb, hcr⟩ := h.buffers
  have hlt := h.sound.lt_next hc
  have hupdate : update heap.holds i (some b'.ref_count) = heap.holds := by
    rw [hr, ← hcr, ← holds_eq hc]
    exact Function.update_eq_self ..
  have ha : heap.Alone i b'.buffer := hb ▸ h.alone
  refine ⟨h.sound.put rfl (Nat.le_refl _) ?_ (hupdate.symm ▸ h.sound.sharing) ha hf, allOk_put h.others rfl rfl ha hok⟩
  exact ⟨hlt.left, hb ▸ hcb ▸ hlt.right.left, hr ▸ hcr ▸ hlt.right.right⟩

theorem Owns.write (h : heap.Owns i b) (hlt : used + bytes.val.length < b.capacity)
    (hle : used + bytes.val.length ≤ defaultMemoryCap) (hn : '\x00' ∉ bytes.val)
    (hs : b.mode = .cstring → ∀ k < used, content k ≠ '\x00') :
    ∃ r heap', heap.write i b content used bytes = some (r, heap') ∧ Sound heap' ∧ heap'.AllOk := by
  have hcap : ¬b.capacity < used + bytes.val.length := by omega
  have hne : ¬b.capacity = used + bytes.val.length := by omega
  rw [BufferHeap.write]
  simp only [hn, hcap, hne, ite_false]
  split
  case isTrue hm  =>
    refine ⟨_, _, rfl, h.put rfl rfl ⟨h.memory_cap, hle, h.capacity⟩ ⟨hlt, fun hc => ?_⟩⟩
    exact nomatch hc.symm.trans hm
  case isFalse hm =>
    have hm : b.mode = .cstring := by
      cases hb : b.mode
      case cstring   => rfl
      case bytearray => exact absurd hb hm
    refine ⟨_, _, rfl, h.put rfl rfl ⟨h.memory_cap, hle, h.capacity⟩ ⟨hlt, fun _ => ⟨Function.update_self .., ?_⟩⟩⟩
    intro k hk
    rw [Function.update_of_ne <| Nat.ne_of_lt hk]
    by_cases hku : used ≤ k
    case neg => simpa [hku] using hs hm k (by omega)
    case pos =>
      have hkl : k - used < bytes.val.length := by
        have : k < used + bytes.val.length := hk
        omega
      rw [if_pos hku, List.getD_eq_getElem?_getD, List.getElem?_eq_getElem hkl, Option.getD_some]
      exact fun he => hn <| he ▸ List.getElem_mem hkl

-- A terminator among the bytes that are written is left before the end of the buffer.
theorem not_allOk_write (hn : '\x00' ∈ bytes.val) {r : Int}
    (h : heap.write i b content used bytes = some (r, heap')) : ¬heap'.AllOk := by
  have ⟨k, hk, he⟩ := List.getElem_of_mem hn
  rw [BufferHeap.write] at h
  simp only [hn, ite_true] at h
  split at h
  case isTrue  => cases h
  case isFalse =>
    rw [if_neg (by nofun)] at h
    split at h
    case isTrue  => cases h
    case isFalse =>
      obtain ⟨_, rfl⟩ := Prod.mk.inj (Option.some.inj h)
      intro hok
      have hne : used + k ≠ used + bytes.val.length := by omega
      apply (hok _ _ (Function.update_self ..)).strlen rfl |>.right (used + k) <| Nat.add_lt_add_left hk used
      simp only [BufferHeap.put, Function.update_self]
      rw [Function.update_of_ne hne]
      simp [hk, he]

theorem Detaches.owns (h : Detaches heap i c heap' b) (hf : c.Fits) : heap'.Owns i b :=
  ⟨h.sound, h.others, ⟨b, h.buffers, rfl, rfl⟩, h.alone, h.cap.trans hf.memory_cap, h.capacity ▸ hf.capacity⟩

theorem Owns.grown {length : Nat} (h : heap.Owns i b) (garbage : Garbage) (content : Nat → Char)
    (hl : length ≤ defaultMemoryCap) :
    heap.Owns i (grown garbage length b content).1 := by
  rw [Libutils.grown]
  split
  case isTrue  => exact ⟨h.sound, h.others, h.buffers, h.alone, h.memory_cap, requiredCapacity_le hl⟩
  case isFalse => exact h

theorem lt_capacity_grown {length : Nat} (hl : length < 2 ^ 31) :
    length < (grown garbage length b content).1.capacity := by
  rw [Libutils.grown]
  split
  case isTrue    => exact lt_requiredCapacity hl
  case isFalse h => exact Nat.not_le.mp h

theorem mode_grown {length : Nat} : (grown garbage length b content).1.mode = b.mode := by
  rw [Libutils.grown]
  split <;> rfl

theorem bytes_grown {length k : Nat} (hk : k < b.capacity) : (grown garbage length b content).2 k = content k := by
  rw [Libutils.grown]
  split
  case isTrue  => exact if_pos hk
  case isFalse => rfl

end

-- What the call returns where it does not fail, for bytes without a terminator.
theorem write_grown (garbage : Garbage) (h : Sound heap) (hok : heap.AllOk) (hb : heap.buffers i = some b) {offset : Nat}
    (hl : offset + bytes.val.length ≤ defaultMemoryCap) (ho : offset ≤ b.used) (hn : '\x00' ∉ bytes.val) :
    ∃ b' heap' r heap'', heap.detached garbage i b = some (b', heap') ∧ b'.used = b.used ∧
      heap'.write i (grown garbage (offset + bytes.val.length) b' (heap'.bytes b'.buffer)).1
        (grown garbage (offset + bytes.val.length) b' (heap'.bytes b'.buffer)).2 offset bytes = some (r, heap'') ∧
      Sound heap'' ∧ heap''.AllOk := by
  have ⟨b', heap', hd, hdetach⟩ := detached_spec garbage h hok hb
  have howns := (hdetach.owns <| h.fits hb).grown garbage (heap'.bytes b'.buffer) hl
  have hbok := hok _ _ hb
  have hkept : (grown garbage (offset + bytes.val.length) b' (heap'.bytes b'.buffer)).1.mode = .cstring →
      ∀ k < offset, (grown garbage (offset + bytes.val.length) b' (heap'.bytes b'.buffer)).2 k ≠ '\x00' := by
    intro hm k hk
    have hku : k < b.used := hk.trans_le ho
    have hkc : k < b'.capacity := hdetach.capacity ▸ hku.trans hbok.used_lt
    rw [mode_grown, hdetach.mode] at hm
    rw [bytes_grown hkc, hdetach.bytes k hku]
    exact (hbok.strlen hm).right k hku
  have ⟨r, heap'', hw, hs, hall⟩ := howns.write (lt_capacity_grown <| hl.trans_lt <| by decide) hl hn hkept
  exact ⟨b', heap', r, heap'', hd, hdetach.used, hw, hs, hall⟩

-- The bytes can be written if there are no terminators among them, or are not written at all.
theorem bufferSet_ok (garbage : Garbage) (h : Sound heap) (hok : heap.AllOk)
    (hm : ∀ b, heap.buffers i = some b → b.memory_cap < bytes.val.length ∨ '\x00' ∉ bytes.val) :
    ∃ r heap', heap.bufferSet garbage i bytes = some (r, heap') ∧ Sound heap' ∧ heap'.AllOk := by
  rw [bufferSet]
  cases hb : heap.buffers i
  case none   => exact ⟨_, _, rfl, h, hok⟩
  case some b =>
    dsimp only
    split
    case isTrue  => exact ⟨_, _, rfl, h, hok⟩
    case isFalse hcap =>
      have hl : 0 + bytes.val.length ≤ defaultMemoryCap := by
        have := (h.fits hb).memory_cap
        omega
      have ⟨b', heap', r, heap'', hd, _, hw, hs, hall⟩ :=
        write_grown garbage h hok hb hl (Nat.zero_le _) <| (hm b hb).resolve_left hcap
      rw [Nat.zero_add] at hw
      simp only [hd, hw]
      exact ⟨r, heap'', rfl, hs, hall⟩

theorem bufferSet_not_ok (h : Sound heap) (hok : heap.AllOk) (hb : heap.buffers i = some b)
    (hcap : bytes.val.length ≤ b.memory_cap) (hn : '\x00' ∈ bytes.val) {r : Int}
    (hr : heap.bufferSet garbage i bytes = some (r, heap')) : ¬heap'.AllOk := by
  have ⟨b', heap'', hd, _⟩ := detached_spec garbage h hok hb
  rw [bufferSet, hb] at hr
  simp only [Nat.not_lt.mpr hcap, ite_false, hd] at hr
  exact not_allOk_write hn hr

theorem unsigned_of_le {n : Nat} (h : n ≤ defaultMemoryCap) : unsigned n = n :=
  Nat.mod_eq_of_lt <| h.trans_lt <| by decide

theorem bufferAppend_ok (garbage : Garbage) (h : Sound heap) (hok : heap.AllOk)
    (hm : ∀ b, heap.buffers i = some b →
      b.used + bytes.val.length < 2 ^ 32 ∧ (b.memory_cap < b.used + bytes.val.length ∨ '\x00' ∉ bytes.val)) :
    ∃ r heap', heap.bufferAppend garbage i bytes = some (r, heap') ∧ Sound heap' ∧ heap'.AllOk := by
  rw [bufferAppend]
  cases hb : heap.buffers i
  case none   => exact ⟨_, _, rfl, h, hok⟩
  case some b =>
    have ⟨hlt, hm⟩ := hm b hb
    have hsum : unsigned (bytes.val.length + b.used) = b.used + bytes.val.length := by
      rw [Nat.add_comm]
      exact Nat.mod_eq_of_lt hlt
    dsimp only
    rw [hsum]
    split
    case isTrue  => exact ⟨_, _, rfl, h, hok⟩
    case isFalse hcap =>
      have hl : b.used + bytes.val.length ≤ defaultMemoryCap := by
        have := (h.fits hb).memory_cap
        omega
      have ⟨b', heap', r, heap'', hd, hu, hw, hs, hall⟩ :=
        write_grown garbage h hok hb hl (Nat.le_refl _) <| hm.resolve_left hcap
      simp only [hd, hu, unsigned_of_le hl, hw]
      exact ⟨r, heap'', rfl, hs, hall⟩

-- A length that is too large for the sum leads past the end of the memory.
theorem bufferAppend_not_ok (h : Sound heap) (hok : heap.AllOk) (hb : heap.buffers i = some b)
    (hm : ¬(b.used + bytes.val.length < 2 ^ 32 ∧ (b.memory_cap < b.used + bytes.val.length ∨ '\x00' ∉ bytes.val)))
    {r : Int} (hr : heap.bufferAppend garbage i bytes = some (r, heap')) : ¬heap'.AllOk := by
  have ⟨b', heap'', hd, hdetach⟩ := detached_spec garbage h hok hb
  have hf := h.fits hb
  rw [bufferAppend, hb] at hr
  by_cases hlt : b.used + bytes.val.length < 2 ^ 32
  case pos =>
    have ⟨hcap, hn⟩ := not_or.mp fun h => hm ⟨hlt, h⟩
    have hsum : unsigned (bytes.val.length + b.used) = b.used + bytes.val.length := by
      rw [Nat.add_comm]
      exact Nat.mod_eq_of_lt hlt
    simp only [hsum, hcap, ite_false, hd] at hr
    exact not_allOk_write (Decidable.not_not.mp hn) hr
  case neg =>
    have hwrap (hu : b.used ≤ defaultMemoryCap) :
        unsigned (b.used + bytes.val.length) ≤ defaultMemoryCap ∧ defaultMemoryCap + 1 < bytes.val.length := by
      have := bytes.property
      simp only [unsigned, defaultMemoryCap] at hu ⊢
      omega
    have ⟨hle, hbig⟩ := hwrap hf.used_le
    have hcap : ¬b.memory_cap < unsigned (bytes.val.length + b.used) := by
      rw [Nat.add_comm, hf.memory_cap]
      omega
    have hc := ((hdetach.owns hf).grown garbage (heap''.bytes b'.buffer) hle).capacity
    simp only [hcap, ite_false, hd, hdetach.used, write] at hr
    rw [if_pos (by omega)] at hr
    cases hr

theorem create_ok (h : Sound heap) (hok : heap.AllOk) {capacity : Nat} {bytes : Nat → Char}
    (hc : used < capacity) (hcap : capacity ≤ defaultMemoryCap + 1) (hs : Strlen bytes used) :
    Sound (heap.create capacity used bytes) ∧ (heap.create capacity used bytes).AllOk := by
  have ha : heap.Alone heap.next (heap.next + 1) := h.alone_of_le <| Nat.le_succ _
  have hholds : heap.holds heap.next = none := by
    rw [holds, h.buffers_eq_none <| Nat.le_refl _]
    rfl
  have hsharing := h.sharing.attach_new (r := heap.next + 2) hholds fun j => h.holds_ne <| Nat.le_add_right ..
  constructor
  case left  =>
    refine h.put rfl (Nat.le_add_right ..) ⟨?_, ?_, ?_⟩ hsharing ha ⟨rfl, ?_, hcap⟩
    case refine_4 => exact Nat.le_of_lt_succ <| hc.trans_le hcap
    all_goals simp
  case right => exact allOk_put (fun _ _ _ => hok _ _) rfl rfl ha ⟨hc, fun _ => hs⟩

theorem bufferNew_ok (h : Sound heap) (hok : heap.AllOk) :
    Sound (heap.bufferNew garbage).2 ∧ (heap.bufferNew garbage).2.AllOk :=
  create_ok h hok (by decide) (by decide) ⟨Function.update_self .., nofun⟩

theorem bufferNewFrom_ok (h : Sound heap) (hok : heap.AllOk) :
    Sound (heap.bufferNewFrom garbage bytes).2 ∧ (heap.bufferNewFrom garbage bytes).2.AllOk := by
  rw [bufferNewFrom]
  dsimp only
  split
  case isTrue       => exact ⟨h, hok⟩
  case isFalse hcap =>
    have hle : (bytes.val.takeWhile (· ≠ '\x00')).length ≤ bytes.val.length :=
      (List.takeWhile_prefix _).length_le
    apply create_ok h hok
    case hc =>
      apply hle.trans_lt
      split
      case isTrue     => exact lt_requiredCapacity <| (Nat.not_lt.mp hcap).trans_lt <| by decide
      case isFalse hl => exact Nat.not_le.mp hl
    case hcap =>
      split
      case isTrue  => exact requiredCapacity_le <| Nat.not_lt.mp hcap
      case isFalse => decide
    case hs =>
      refine ⟨Function.update_self .., fun k hk => ?_⟩
      have ⟨rest, hrest⟩ := List.takeWhile_prefix (l := bytes.val) (· ≠ '\x00')
      have hget : bytes.val.getD k '\x00' = (bytes.val.takeWhile (· ≠ '\x00'))[k] := by
        rw [List.getD_eq_getElem?_getD]
        conv => lhs; rw [← hrest]
        rw [List.getElem?_append_left hk, List.getElem?_eq_getElem hk, Option.getD_some]
      rw [Function.update_of_ne <| Nat.ne_of_lt hk, if_pos hk, hget]
      exact of_decide_eq_true <| List.mem_takeWhile_imp (p := (· ≠ '\x00')) <| List.getElem_mem hk

theorem bufferCopy_ok (h : Sound heap) (hok : heap.AllOk) (destination : Option Nat) :
    Sound (heap.bufferCopy i destination).2 ∧ (heap.bufferCopy i destination).2.AllOk := by
  rw [bufferCopy]
  cases hb : heap.buffers i
  case none   => exact ⟨h, hok⟩
  case some b =>
    dsimp only
    split
    case isTrue  => exact ⟨h, hok⟩
    case isFalse =>
      have hbuffers (j) : update heap.buffers heap.next (some b) j = if j = heap.next then some b else heap.buffers j :=
        Function.update_apply ..
      have hget {j c} (hj : update heap.buffers heap.next (some b) j = some c) :
          (∃ k, heap.buffers k = some c) ∧ j < heap.next + 1 := by
        rw [hbuffers] at hj
        split at hj
        case isTrue hn => cases hj; exact ⟨⟨i, hb⟩, by omega⟩
        case isFalse   => exact ⟨⟨j, hj⟩, Nat.lt_succ_of_lt (h.lt_next hj).left⟩
      have hnone : heap.holds heap.next = none := by
        rw [holds, h.buffers_eq_none <| Nat.le_refl _]
        rfl
      constructor
      case right =>
        intro j c hj
        obtain ⟨⟨k, hk⟩, _⟩ := hget hj
        exact hok k c hk
      constructor
      case lt_next =>
        intro j c hj
        obtain ⟨⟨k, hk⟩, hlt⟩ := hget hj
        obtain ⟨_, hc, hr⟩ := h.lt_next hk
        exact ⟨hlt, Nat.lt_succ_of_lt hc, Nat.lt_succ_of_lt hr⟩
      case sharing =>
        have hholds : update heap.holds heap.next (some b.ref_count) =
            fun j => (update heap.buffers heap.next (some b) j).map Buffer.ref_count := by
          funext j
          rw [hbuffers, Function.update_apply]
          split <;> rfl
        have hs := h.sharing.attach hnone (holds_eq hb)
        rw [hholds] at hs
        exact hs
      case shared =>
        intro j k c d hj hk he
        obtain ⟨⟨_, hc⟩, _⟩ := hget hj
        obtain ⟨⟨_, hd⟩, _⟩ := hget hk
        exact h.shared hc hd he
      case fits =>
        intro j c hj
        obtain ⟨⟨_, hc⟩, _⟩ := hget hj
        exact h.fits hc

theorem bufferZero_ok (h : Sound heap) (hok : heap.AllOk) :
    Sound (heap.bufferZero garbage i) ∧ (heap.bufferZero garbage i).AllOk := by
  rw [bufferZero]
  cases hb : heap.buffers i
  case none   => exact ⟨h, hok⟩
  case some b =>
    have hlt := (hok _ _ hb).used_lt
    have hf := h.fits hb
    dsimp only
    split
    case isTrue hs  =>
      have ⟨old, hd, hsound⟩ := @Sound.relocate _ _ _ (update garbage 0 '\x00') h hb hs 0 (Nat.zero_le _)
      rw [hd, Option.getD_some]
      refine ⟨hsound, allOk_put (fun _ _ _ => hok _ _) rfl rfl (h.alone_of_le <| Nat.le_refl _) ?_⟩
      exact ⟨Nat.zero_lt_of_lt hlt, fun _ => ⟨Function.update_self .., nofun⟩⟩
    case isFalse hs =>
      have howns : heap.Owns i b :=
        ⟨h, fun _ _ _ => hok _ _, ⟨b, hb, rfl, rfl⟩, h.alone hb hs, hf.memory_cap, hf.capacity⟩
      exact howns.put rfl rfl ⟨hf.memory_cap, Nat.zero_le _, hf.capacity⟩
        ⟨Nat.zero_lt_of_lt hlt, fun _ => ⟨Function.update_self .., nofun⟩⟩

theorem terminatorIndex_cases (bytes : Nat → Char) (used : Nat) :
    (∃ k < used, terminatorIndex bytes used = k ∧ Strlen bytes k) ∨
      terminatorIndex bytes used = used ∧ ∀ k < used, bytes k ≠ '\x00' := by
  rw [terminatorIndex]
  cases hf : (List.range used).find? (fun i => bytes i = '\x00')
  case none   =>
    rw [List.find?_range_eq_none] at hf
    exact .inr ⟨rfl, fun k hk => by simpa using hf k hk⟩
  case some k =>
    obtain ⟨hk, hlt, hn⟩ := List.find?_range_eq_some.mp hf
    exact .inl ⟨k, List.mem_range.mp hlt, rfl, of_decide_eq_true hk, fun j hj => by simpa using hn j hj⟩

theorem terminatorIndex_le {bytes : Nat → Char} : terminatorIndex bytes used ≤ used := by
  cases terminatorIndex_cases bytes used
  case inl h =>
    have ⟨k, hk, he, _⟩ := h
    exact he ▸ Nat.le_of_lt hk
  case inr h => exact Nat.le_of_eq h.left

theorem strlen_terminatorIndex {bytes : Nat → Char} :
    Strlen bytes (terminatorIndex bytes used) ↔ ∃ k ≤ used, bytes k = '\x00' := by
  constructor
  case mp  => exact fun h => ⟨_, terminatorIndex_le, h.left⟩
  case mpr =>
    intro ⟨k, hk, hn⟩
    cases terminatorIndex_cases bytes used
    case inl h =>
      have ⟨k, _, he, hs⟩ := h
      exact he ▸ hs
    case inr h =>
      have hku : k = used := by
        by_contra hne
        exact h.right k (by omega) hn
      exact h.left.symm ▸ ⟨hku ▸ hn, h.right⟩

theorem bufferSetMode_sound {mode : BufferBehavior} (h : Sound heap) : Sound (heap.bufferSetMode i mode) := by
  rw [bufferSetMode]
  cases hb : heap.buffers i
  case none   => exact h
  case some b =>
    have hf := h.fits hb
    refine h.setBuffer hb rfl rfl ⟨hf.memory_cap, ?_, hf.capacity⟩
    dsimp only
    split
    case isTrue  => exact terminatorIndex_le.trans hf.used_le
    case isFalse => exact hf.used_le

theorem bufferSetMode_allOk {mode : BufferBehavior} (hok : heap.AllOk) :
    (heap.bufferSetMode i mode).AllOk ↔
      (mode = .cstring → ∀ b, heap.buffers i = some b → ∃ k ≤ b.used, heap.bytes b.buffer k = '\x00') := by
  rw [bufferSetMode]
  cases hb : heap.buffers i
  case none   => exact iff_of_true hok fun _ _ hn => nomatch hn
  case some b =>
    have hbok := hok _ _ hb
    cases mode
    case bytearray =>
      have hok' : Buffer.IsOk { b with mode := .bytearray } (heap.bytes b.buffer) :=
        ⟨hbok.used_lt, fun hm => BufferBehavior.noConfusion hm⟩
      exact iff_of_true (allOk_setBuffer hok hok') nofun
    case cstring   =>
      constructor
      case mp  =>
        intro h _ c hc
        cases hc
        have hs := (h _ _ (Function.update_self ..)).strlen rfl
        exact strlen_terminatorIndex.mp hs
      case mpr =>
        intro h
        have hs := strlen_terminatorIndex.mpr <| h rfl b rfl
        have hok' : Buffer.IsOk { b with mode := .cstring, used := terminatorIndex (heap.bytes b.buffer) b.used }
            (heap.bytes b.buffer) := ⟨terminatorIndex_le.trans_lt hbok.used_lt, fun _ => hs⟩
        exact allOk_setBuffer hok hok'

-- The calls after which the buffers are still well formed.
def Meets (heap : BufferHeap) : BufferCall → Prop
  | .set i bytes        => ∀ b, heap.buffers i = some b → b.memory_cap < bytes.val.length ∨ '\x00' ∉ bytes.val
  | .append i bytes     => ∀ b, heap.buffers i = some b →
    b.used + bytes.val.length < 2 ^ 32 ∧ (b.memory_cap < b.used + bytes.val.length ∨ '\x00' ∉ bytes.val)
  | .setMode i .cstring => ∀ b, heap.buffers i = some b → ∃ k ≤ b.used, heap.bytes b.buffer k = '\x00'
  | _                   => True

theorem step_ok {call : BufferCall} (h : Sound heap) (hok : heap.AllOk) (hm : heap.Meets call) :
    ∃ heap', heap.step garbage call = some heap' ∧ Sound heap' ∧ heap'.AllOk := by
  cases call
  case new                     => exact ⟨_, rfl, bufferNew_ok h hok⟩
  case newFrom data            => exact ⟨_, rfl, bufferNewFrom_ok h hok⟩
  case copy source destination => exact ⟨_, rfl, bufferCopy_ok h hok destination⟩
  case zero                    => exact ⟨_, rfl, bufferZero_ok h hok⟩
  case set i bytes             =>
    have ⟨_, heap', hr, hs, hall⟩ := bufferSet_ok garbage h hok hm
    exact ⟨heap', by rw [step, hr]; rfl, hs, hall⟩
  case append i bytes          =>
    have ⟨_, heap', hr, hs, hall⟩ := bufferAppend_ok garbage h hok hm
    exact ⟨heap', by rw [step, hr]; rfl, hs, hall⟩
  case setMode i mode          =>
    refine ⟨_, rfl, bufferSetMode_sound h, (bufferSetMode_allOk hok).mpr fun hmode => ?_⟩
    subst hmode
    exact hm

theorem step_not_ok {call : BufferCall} (h : Sound heap) (hok : heap.AllOk) (hm : ¬heap.Meets call)
    (hr : heap.step garbage call = some heap') : ¬heap'.AllOk := by
  cases call
  case set i bytes    =>
    have ⟨b, hb⟩ := not_forall.mp hm
    have ⟨hb, hn⟩ := Classical.not_imp.mp hb
    have ⟨hcap, hn⟩ := not_or.mp hn
    have ⟨⟨r, heap''⟩, hset, he⟩ := Option.map_eq_some_iff.mp hr
    exact he ▸ bufferSet_not_ok h hok hb (Nat.not_lt.mp hcap) (Decidable.not_not.mp hn) hset
  case append i bytes =>
    have ⟨b, hb⟩ := not_forall.mp hm
    have ⟨hb, hn⟩ := Classical.not_imp.mp hb
    have ⟨⟨r, heap''⟩, hset, he⟩ := Option.map_eq_some_iff.mp hr
    exact he ▸ bufferAppend_not_ok h hok hb hn hset
  case setMode i mode =>
    cases mode
    case bytearray => exact absurd trivial hm
    case cstring   =>
      cases hr
      exact fun hall => hm <| (bufferSetMode_allOk hok).mp hall rfl
  all_goals exact absurd trivial hm

-- The calls of a run, each with what it finds in memory that has not been written to.
def stepOutcome (heap : Outcome BufferHeap) (call : BufferCall × Garbage) : Outcome BufferHeap :=
  heap.bind fun heap => heap.step call.2 call.1

def OutcomeOk (heap : Outcome BufferHeap) : Prop :=
  ∃ heap', heap = some heap' ∧ heap'.AllOk

def OutcomeMeets (heap : Outcome BufferHeap) (call : BufferCall × Garbage) : Prop :=
  ∀ heap', heap = some heap' → heap'.Meets call.1

theorem sound_empty : Sound empty where
  lt_next := nofun
  sharing := ⟨nofun, nofun⟩
  shared  := nofun
  fits    := nofun

-- The buffers are well formed throughout a run if and only if its calls leave them so.
theorem buffers_ok_iff (calls : List (BufferCall × Garbage)) :
    Run.Always OutcomeOk stepOutcome (some empty) calls ↔
      Run.EveryStep OutcomeMeets stepOutcome (some empty) calls := by
  apply Run.always_iff_everyStep (P := fun heap => ∃ heap', heap = some heap' ∧ Sound heap' ∧ heap'.AllOk)
    (H := fun _ _ => True)
  case h₀ => exact ⟨empty, rfl, sound_empty, nofun⟩
  case hh => exact Run.everyStep_of_forall fun _ _ => trivial
  case hq => exact fun _ ⟨heap, he, _, hok⟩ => ⟨heap, he, hok⟩
  case hs =>
    intro _ call ⟨heap, he, h, hok⟩ _ hm
    subst he
    exact step_ok h hok <| hm heap rfl
  case hb =>
    intro _ call ⟨heap, he, h, hok⟩ _ hm ⟨heap', hr, hok'⟩
    subst he
    exact step_not_ok h hok (fun hm' => hm fun _ he => Option.some.inj he ▸ hm') hr hok'

-- A terminator that is set in a string, and the bytes of an array of which a string is made.
theorem not_buffers_ok :
    ¬Run.Always OutcomeOk stepOutcome (some empty)
      [(.newFrom ⟨[], by decide⟩, fun _ => 'g'), (.set 0 ⟨['a', '\x00', 'b'], by decide⟩, fun _ => 'g')] ∧
    ¬Run.Always OutcomeOk stepOutcome (some empty)
      [(.newFrom ⟨['a', 'b'], by decide⟩, fun _ => 'g'), (.setMode 0 .bytearray, fun _ => 'g'),
        (.set 0 ⟨['c'], by decide⟩, fun _ => 'g'), (.setMode 0 .cstring, fun _ => 'g')] := by
  constructor
  case left  =>
    intro h
    have ⟨heap, he, hok⟩ := h.last
    cases he
    have hs := (hok 0 _ rfl).strlen rfl
    exact hs.right 1 (by decide) rfl
  case right =>
    intro h
    have ⟨heap, he, hok⟩ := h.last
    cases he
    have hs := (hok 0 _ rfl).strlen rfl
    exact absurd hs.left (by decide)

end BufferHeap
end CfEngine.Libutils
