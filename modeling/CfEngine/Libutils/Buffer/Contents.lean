import CfEngine.Libutils.Buffer.Terminator

namespace CfEngine.Libutils

open Function (update)

-- The bytes that a mode takes from an argument.
def BufferBehavior.visible (mode : BufferBehavior) (bytes : List Char) : List Char :=
  match mode with
  | cstring   => bytes.takeWhile (· ≠ '\x00')
  | bytearray => bytes

namespace BufferHeap

def contents (heap : BufferHeap) (b : Buffer) : List Char :=
  (List.range b.used).map (heap.bytes b.buffer)

-- The call has left the buffer in its mode, with the bytes, and has returned their number.
def Stores (outcome : Outcome (Int × BufferHeap)) (i : Nat) (mode : BufferBehavior) (bytes : List Char) : Prop :=
  ∃ heap b, outcome = some ((bytes.length : Int), heap) ∧ heap.buffers i = some b ∧ b.mode = mode ∧
    heap.contents b = bytes

variable {heap heap' : BufferHeap} {i used : Nat} {b b' : Buffer} {content : Nat → Char} {bytes : Bytes}
  {garbage : Garbage} {expected : List Char}

theorem visible_of_not_mem {mode : BufferBehavior} {bytes : List Char} (h : '\x00' ∉ bytes) :
    mode.visible bytes = bytes := by
  cases mode
  case cstring =>
    exact List.takeWhile_eq_self_iff.mpr fun c hc => by
      rw [decide_eq_true_iff]
      exact fun he => h <| he ▸ hc
  case bytearray => rfl

theorem visible_length_lt {bytes : List Char} (h : '\x00' ∈ bytes) :
    (BufferBehavior.cstring.visible bytes).length < bytes.length := by
  by_contra hl
  have he := (List.takeWhile_prefix (p := fun c => decide (c ≠ '\x00')) (l := bytes)).eq_of_length_le <|
    Nat.not_lt.mp hl
  have hall := List.takeWhile_eq_self_iff.mp he _ h
  simp at hall

theorem signed_eq_iff {n : Nat} (h : n < 2 ^ 32) : signed n = n ↔ n < 2 ^ 31 := by
  simp only [signed]
  omega

theorem length_contents : (heap.contents b).length = b.used := by
  simp [contents]

-- The number of bytes is returned as an `int`.
theorem lt_of_stores_write {mode : BufferBehavior} (hl : used + bytes.val.length < 2 ^ 32)
    (h : Stores (heap.write i b content used bytes) i mode expected) : used + bytes.val.length < 2 ^ 31 := by
  have hput {c : Buffer} {f : Nat → Char} (hc : c.used = used + bytes.val.length)
      (h : Stores (some (signed (used + bytes.val.length), heap.put i c f)) i mode expected) :
      used + bytes.val.length < 2 ^ 31 := by
    obtain ⟨heap', b', he, hb, _, hexpected⟩ := h
    obtain ⟨hs, rfl⟩ := Prod.mk.inj (Option.some.inj he)
    cases (show (heap.put i c f).buffers i = some c from Function.update_self ..).symm.trans hb
    rw [← hexpected, length_contents, hc] at hs
    exact (signed_eq_iff hl).mp hs
  have hnone (h : Stores none i mode expected) : used + bytes.val.length < 2 ^ 31 :=
    have ⟨_, _, he, _⟩ := h
    absurd he (Option.some_ne_none _).symm
  rw [write] at h
  generalize (if '\x00' ∈ bytes.val then BufferBehavior.cstring else b.mode) = m at h
  dsimp only at h
  split at h
  case isTrue  => exact hnone h
  case isFalse =>
    split at h
    case isTrue  => exact hput rfl h
    case isFalse =>
      split at h
      case isTrue  => exact hnone h
      case isFalse => exact hput rfl h

-- What the loop leaves in a buffer that is large enough, where a number of bytes can be returned at all.
theorem stores_write_iff {mode : BufferBehavior}
    (hcap : used + bytes.val.length < 2 ^ 31 → used + bytes.val.length < b.capacity)
    (hl : used + bytes.val.length < 2 ^ 32) :
    Stores (heap.write i b content used bytes) i mode expected ↔
      used + bytes.val.length < 2 ^ 31 ∧ (if '\x00' ∈ bytes.val then .cstring else b.mode) = mode ∧
        (List.range used).map content ++ bytes.val = expected := by
  by_cases hint : used + bytes.val.length < 2 ^ 31
  case neg => exact iff_of_false (mt (lt_of_stores_write hl) hint) fun h => hint h.left
  have hcap := hcap hint
  rw [write]
  generalize (if '\x00' ∈ bytes.val then BufferBehavior.cstring else b.mode) = m
  have hbytes {f : Nat → Char} (hf : ∀ k < used + bytes.val.length,
      f k = if used ≤ k then bytes.val.getD (k - used) (content k) else content k) :
      (List.range (used + bytes.val.length)).map f = (List.range used).map content ++ bytes.val := by
    apply List.ext_getElem
    · simp
    · intro k hk hk'
      rw [List.length_map, List.length_range] at hk
      rw [List.getElem_map, List.getElem_range, hf k hk, List.getElem_append]
      simp only [List.length_map, List.length_range, List.getElem_map, List.getElem_range]
      by_cases hu : k < used
      case pos => rw [dif_pos hu, if_neg (Nat.not_le.mpr hu)]
      case neg =>
        have hkl : k - used < bytes.val.length := by omega
        rw [dif_neg hu, if_pos (Nat.not_lt.mp hu), List.getD_eq_getElem?_getD, List.getElem?_eq_getElem hkl,
          Option.getD_some]
  have hstores {r : BufferHeap} {b' : Buffer} (hb : r.buffers i = some b')
      (hm : b'.mode = m)
      (hc : r.contents b' = (List.range used).map content ++ bytes.val) :
      Stores (some (signed (used + bytes.val.length), r)) i mode expected ↔
        used + bytes.val.length < 2 ^ 31 ∧ m = mode ∧ (List.range used).map content ++ bytes.val = expected := by
    have hlen : ((List.range used).map content ++ bytes.val).length = used + bytes.val.length := by simp
    constructor
    case mp  =>
      rintro ⟨r', c, he, hr, hmode, hcontents⟩
      obtain ⟨hs, rfl⟩ := Prod.mk.inj (Option.some.inj he)
      cases hb.symm.trans hr
      have hexpected := hc.symm.trans hcontents
      rw [← hexpected, hlen, signed_eq_iff hl] at hs
      exact ⟨hs, hm.symm.trans hmode, hexpected⟩
    case mpr =>
      rintro ⟨hs, hmode, hexpected⟩
      refine ⟨r, b', ?_, hb, hm.trans hmode, hc.trans hexpected⟩
      rw [← hexpected, hlen, (signed_eq_iff hl).mpr hs]
  dsimp only
  rw [if_neg <| Nat.not_lt.mpr <| Nat.le_of_lt hcap]
  split
  case isTrue =>
    apply hstores (Function.update_self ..) rfl
    rw [contents, put]
    simp only [Function.update_self]
    exact hbytes fun k _ => rfl
  case isFalse =>
    rw [if_neg <| Ne.symm <| Nat.ne_of_lt hcap]
    apply hstores (Function.update_self ..) rfl
    rw [contents, put]
    simp only [Function.update_self]
    exact hbytes fun k hk => Function.update_of_ne (Nat.ne_of_lt hk) ..

-- The part of the contents that a buffer takes along when it is given bytes of its own.
def kept (heap : BufferHeap) (b : Buffer) : List Char :=
  if (heap.refCounts b.ref_count).isShared then b.mode.visible (heap.contents b) else heap.contents b

theorem visible_range {f : Nat → Char} {n : Nat} :
    BufferBehavior.cstring.visible ((List.range n).map f) = (List.range (terminatorIndex f n)).map f := by
  have htake {k : Nat} (hk : k ≤ n) : (List.range k).map f = ((List.range n).map f).take k := by
    rw [← List.map_take, List.take_range, Nat.min_eq_left hk]
  cases terminatorIndex_cases f n
  case inl h =>
    have ⟨k, hk, he, hs⟩ := h
    rw [he, htake <| Nat.le_of_lt hk, BufferBehavior.visible]
    have hlt : k < ((List.range n).map f).length := by simpa using hk
    conv => lhs; rw [← List.take_append_drop k ((List.range n).map f), List.drop_eq_getElem_cons hlt]
    rw [List.takeWhile_append_of_pos, List.takeWhile_cons_of_neg, List.append_nil]
    · simp [hs.left]
    · intro c hc
      rw [← htake <| Nat.le_of_lt hk] at hc
      have ⟨j, hj, he⟩ := List.mem_map.mp hc
      simpa [← he] using hs.right j (List.mem_range.mp hj)
  case inr h =>
    rw [h.left]
    apply visible_of_not_mem
    intro hm
    have ⟨j, hj, he⟩ := List.mem_map.mp hm
    exact h.right j (List.mem_range.mp hj) he

theorem detached_contents (garbage : Garbage) (hs : Sharing heap.holds heap.refCounts) (hb : heap.buffers i = some b) :
    ∃ b' heap', heap.detached garbage i b = some (b', heap') ∧ b'.mode = b.mode ∧ b'.capacity = b.capacity ∧
      b'.used ≤ b.used ∧ heap'.contents b' = heap.kept b := by
  rw [detached, kept]
  split
  case isTrue h  => exact ⟨b, heap, rfl, rfl, rfl, Nat.le_refl _, rfl⟩
  case isFalse h =>
    have h := Decidable.not_not.mp h
    rw [hs.detach_eq (holds_eq hb) h]
    refine ⟨_, _, rfl, rfl, rfl, ?_, ?_⟩
    case refine_1 =>
      dsimp only [relocate]
      split
      case isTrue  => exact terminatorIndex_le
      case isFalse => exact Nat.le_refl _
    case refine_2 =>
      rw [contents]
      simp only [put, Function.update_self]
      split
      case isTrue hm  =>
        rw [hm, contents, visible_range]
        apply List.map_congr_left
        intro k hk
        have hk := List.mem_range.mp hk
        exact if_pos ⟨hk.trans_le terminatorIndex_le, Nat.le_of_lt hk⟩
      case isFalse hm =>
        have hm : b.mode = .bytearray := by
          cases h : b.mode
          case cstring   => exact absurd h hm
          case bytearray => rfl
        rw [hm, contents, BufferBehavior.visible]
        apply List.map_congr_left
        intro k hk
        have hk := List.mem_range.mp hk
        exact if_pos ⟨hk, Nat.le_of_lt hk⟩

theorem mode_visible_iff {mode : BufferBehavior} {bytes : List Char} :
    (if '\x00' ∈ bytes then .cstring else mode) = mode ∧ bytes = mode.visible bytes ↔ '\x00' ∉ bytes := by
  constructor
  case mp  =>
    intro ⟨hm, hv⟩ hn
    rw [if_pos hn] at hm
    subst hm
    exact absurd (congrArg List.length hv).symm <| Nat.ne_of_lt <| visible_length_lt hn
  case mpr => exact fun hn => ⟨if_neg hn, (visible_of_not_mem hn).symm⟩

theorem bufferSet_stores_iff (garbage : Garbage) (hs : Sharing heap.holds heap.refCounts)
    (hb : heap.buffers i = some b) (hl : bytes.val.length ≤ b.memory_cap) :
    Stores (heap.bufferSet garbage i bytes) i b.mode (b.mode.visible bytes.val) ↔
      '\x00' ∉ bytes.val ∧ bytes.val.length < 2 ^ 31 := by
  have ⟨b', heap', hd, hm, _⟩ := detached_contents garbage hs hb
  rw [bufferSet, hb]
  simp only [Nat.not_lt.mpr hl, ite_false, hd]
  rw [stores_write_iff (by rw [Nat.zero_add]; exact lt_capacity_grown) (by rw [Nat.zero_add]; exact bytes.property)]
  rw [mode_grown, hm, Nat.zero_add, List.range_zero, List.map_nil, List.nil_append, mode_visible_iff]
  exact And.comm

-- The bytes are put behind a string that is cut at its first terminator where the buffer is shared.
def Cut (heap : BufferHeap) (b : Buffer) : Prop :=
  (heap.refCounts b.ref_count).isShared ∧ b.mode = .cstring ∧ '\x00' ∈ heap.contents b

theorem kept_of_not_cut (h : ¬heap.Cut b) : heap.kept b = heap.contents b := by
  rw [kept]
  split
  case isFalse    => rfl
  case isTrue hsh =>
    cases hm : b.mode
    case bytearray => rfl
    case cstring   => exact visible_of_not_mem fun hn => h ⟨hsh, hm, hn⟩

theorem visible_append_dropWhile (bytes : List Char) :
    BufferBehavior.cstring.visible bytes ++ bytes.dropWhile (· ≠ '\x00') = bytes :=
  List.takeWhile_append_dropWhile

theorem visible_eq_nil {bytes rest : List Char} (hn : '\x00' ∈ bytes) :
    BufferBehavior.cstring.visible (bytes.dropWhile (· ≠ '\x00') ++ rest) = [] := by
  have hne : bytes.dropWhile (· ≠ '\x00') ≠ [] := fun h => by simpa using List.dropWhile_eq_nil_iff.mp h _ hn
  have hhead := List.head_dropWhile_not (fun c => decide (c ≠ '\x00')) hne
  rw [← List.cons_head_tail hne, List.cons_append]
  rw [BufferBehavior.visible, List.takeWhile_cons_of_neg]
  simpa using hhead

theorem bufferAppend_stores_iff (garbage : Garbage) (hs : Sharing heap.holds heap.refCounts)
    (hb : heap.buffers i = some b) (hu : b.used ≤ b.capacity) (hcap : b.memory_cap < 2 ^ 32)
    (hl : b.used + bytes.val.length ≤ b.memory_cap) :
    Stores (heap.bufferAppend garbage i bytes) i b.mode (heap.contents b ++ b.mode.visible bytes.val) ↔
      (heap.contents b ++ b.mode.visible bytes.val).length < 2 ^ 31 ∧
        (heap.Cut b → bytes.val = (heap.contents b).dropWhile (· ≠ '\x00')) ∧
        (¬heap.Cut b → '\x00' ∉ bytes.val) := by
  obtain ⟨b', heap', hd, hm, hc, hused, hcontents⟩ := detached_contents garbage hs hb
  have hlen : (heap.kept b).length = b'.used := hcontents ▸ length_contents
  have hsum : unsigned (bytes.val.length + b.used) = b.used + bytes.val.length := by
    rw [Nat.add_comm]
    exact Nat.mod_eq_of_lt <| hl.trans_lt hcap
  have hlt : b'.used + bytes.val.length < 2 ^ 32 := by omega
  have hgrown : unsigned (b'.used + bytes.val.length) = b'.used + bytes.val.length := Nat.mod_eq_of_lt hlt
  have hbytes : (List.range b'.used).map
      (grown garbage (b'.used + bytes.val.length) b' (heap'.bytes b'.buffer)).2 = heap.kept b := by
    rw [← hcontents, contents]
    exact List.map_congr_left fun k hk => bytes_grown <| (List.mem_range.mp hk).trans_le <| hc.symm ▸ hused.trans hu
  rw [bufferAppend, hb]
  simp only [hsum, Nat.not_lt.mpr hl, ite_false, hd, hgrown]
  rw [stores_write_iff lt_capacity_grown hlt, mode_grown, hm, hbytes]
  have hlength {rest : List Char} (h : heap.kept b ++ bytes.val = rest) :
      b'.used + bytes.val.length = rest.length := by
    rw [← h, List.length_append, hlen]
  by_cases hcut : heap.Cut b
  case neg =>
    rw [kept_of_not_cut hcut] at hlength ⊢
    constructor
    case mp  =>
      rintro ⟨hlt, hmode, he⟩
      refine ⟨hlength he ▸ hlt, fun h => absurd h hcut, fun _ => ?_⟩
      exact mode_visible_iff.mp ⟨hmode, List.append_cancel_left he⟩
    case mpr =>
      rintro ⟨hlt, _, hn⟩
      obtain ⟨hmode, hv⟩ := (@mode_visible_iff b.mode _).mpr <| hn hcut
      have he := congrArg (heap.contents b ++ ·) hv
      exact ⟨hlength he ▸ hlt, hmode, he⟩
  case pos =>
    have hsh := hcut.left
    have hmode := hcut.right.left
    have hn := hcut.right.right
    have hkept : heap.kept b = BufferBehavior.cstring.visible (heap.contents b) := by
      rw [kept, if_pos hsh, hmode]
    have hsplit := visible_append_dropWhile (heap.contents b)
    rw [hmode]
    constructor
    case mp  =>
      rintro ⟨hlt, _, he⟩
      refine ⟨hlength he ▸ hlt, fun _ => ?_, fun h => absurd hcut h⟩
      have hrest : bytes.val = (heap.contents b).dropWhile (· ≠ '\x00') ++ BufferBehavior.cstring.visible bytes.val := by
        rw [hkept] at he
        nth_rewrite 2 [← hsplit] at he
        rw [List.append_assoc] at he
        exact List.append_cancel_left he
      have hnil : BufferBehavior.cstring.visible bytes.val = [] := hrest ▸ visible_eq_nil hn
      rw [hnil, List.append_nil] at hrest
      exact hrest
    case mpr =>
      rintro ⟨hlt, hrest, _⟩
      have hrest := hrest hcut
      have hnil : BufferBehavior.cstring.visible bytes.val = [] := by
        rw [hrest, ← List.append_nil (List.dropWhile _ _)]
        exact visible_eq_nil hn
      have he : heap.kept b ++ bytes.val = heap.contents b ++ BufferBehavior.cstring.visible bytes.val := by
        rw [hnil, List.append_nil, hkept, hrest, hsplit]
      exact ⟨hlength he ▸ hlt, ite_self _, he⟩

-- A terminator among the bytes is the only one that is not stored as the mode asks for, apart from a length that
-- is not an `int` and from the bytes that a string is cut by and gets back.
theorem bufferStores_iff (garbage : Garbage) (bytes : Bytes) (hs : Sharing heap.holds heap.refCounts)
    (hb : heap.buffers i = some b) (hu : b.used ≤ b.capacity) (hcap : b.memory_cap < 2 ^ 32) :
    (bytes.val.length ≤ b.memory_cap →
      (Stores (heap.bufferSet garbage i bytes) i b.mode (b.mode.visible bytes.val) ↔
        '\x00' ∉ bytes.val ∧ bytes.val.length < 2 ^ 31)) ∧
    (b.used + bytes.val.length ≤ b.memory_cap →
      (Stores (heap.bufferAppend garbage i bytes) i b.mode (heap.contents b ++ b.mode.visible bytes.val) ↔
        (heap.contents b ++ b.mode.visible bytes.val).length < 2 ^ 31 ∧
          (heap.Cut b → bytes.val = (heap.contents b).dropWhile (· ≠ '\x00')) ∧
          (¬heap.Cut b → '\x00' ∉ bytes.val))) :=
  ⟨bufferSet_stores_iff garbage hs hb, bufferAppend_stores_iff garbage hs hb hu hcap⟩

-- A buffer with three bytes, one of which is a zero.
def byteArray : Buffer :=
  ⟨1, .bytearray, 4096, 3, 65535, 2⟩

def byteHeap : BufferHeap :=
  (bufferNew (fun _ => 'g') empty).2.put 0 byteArray fun k => ['a', '\x00', 'b'].getD k 'g'

theorem sound_byteHeap : Sound byteHeap := by
  have hnew : (bufferNew (fun _ => 'g') empty).2.buffers 0 = some ⟨1, .cstring, 4096, 0, 65535, 2⟩ := rfl
  have hsound := (@bufferNew_ok empty (fun _ => 'g') sound_empty nofun).left
  have hholds : update (bufferNew (fun _ => 'g') empty).2.holds 0 (some 2) = (bufferNew (fun _ => 'g') empty).2.holds :=
    Function.update_eq_self_iff.mpr (holds_eq hnew).symm
  exact hsound.put rfl (Nat.le_refl _) (by decide) (hholds.symm ▸ hsound.sharing) (hsound.alone hnew <| by decide)
    ⟨rfl, by decide, by decide⟩

theorem bufferStores_iff_bytearray :
    Stores (byteHeap.bufferSet (fun _ => 'g') 0 ⟨['c', 'd'], by decide⟩) 0 .bytearray ['c', 'd'] ∧
      Stores (byteHeap.bufferAppend (fun _ => 'g') 0 ⟨['c'], by decide⟩) 0 .bytearray ['a', '\x00', 'b', 'c'] ∧
        ¬Stores (byteHeap.bufferAppend (fun _ => 'g') 0 ⟨['c', '\x00'], by decide⟩) 0 .bytearray
          ['a', '\x00', 'b', 'c', '\x00'] := by
  have h (bytes : Bytes) := bufferStores_iff (fun _ => 'g') bytes sound_byteHeap.sharing
    (show byteHeap.buffers 0 = some byteArray from rfl) (by decide) (by decide)
  have hcut : ¬byteHeap.Cut byteArray := fun hc => nomatch hc.right.left
  refine ⟨((h _).left (by decide)).mpr ⟨by decide, by decide⟩, ((h _).right (by decide)).mpr ?_, fun hs => ?_⟩
  case refine_1 => exact ⟨by decide, fun hc => absurd hc hcut, fun _ => by decide⟩
  case refine_2 => exact absurd (((h _).right (by decide)).mp hs).right.right (fun hn => absurd (hn hcut) (by decide))

-- An array of bytes turns into a string, and a string is not cut.
theorem not_bufferStores :
    ¬Stores ((bufferNew (fun _ => 'g') empty).2.bufferSetMode 0 .bytearray
      |>.bufferSet (fun _ => 'g') 0 ⟨['a', '\x00', 'b'], by decide⟩) 0 .bytearray
      (BufferBehavior.bytearray.visible ['a', '\x00', 'b']) ∧
    ¬Stores ((bufferNew (fun _ => 'g') empty).2.bufferSet (fun _ => 'g') 0 ⟨['a', '\x00', 'b'], by decide⟩) 0 .cstring
      (BufferBehavior.cstring.visible ['a', '\x00', 'b']) := by
  constructor
  case left  =>
    intro ⟨heap, b, he, hb, hm, _⟩
    cases he
    cases hb
    nomatch hm
  case right =>
    have hreturned : ((bufferNew (fun _ => 'g') empty).2.bufferSet (fun _ => 'g') 0
        ⟨['a', '\x00', 'b'], by decide⟩).map Prod.fst ≠ some 1 := by decide
    intro ⟨heap, b, he, _⟩
    exact hreturned <| congrArg (Option.map Prod.fst) he

end BufferHeap
end CfEngine.Libutils
