import CfEngine.CfServerd.Transfer.Content
import CfEngine.Libcfnet.ClientCode
import CfEngine.Libcfnet.Net.Delivery

namespace CfEngine

-- The bytes that come from the other end, the sizes less one of the pieces in which they come at first, and
-- whether it closes the connection after them.
structure ByteStream where
  data   : Buffer
  chunks : List Nat
  closed : Bool

namespace ByteStream

def recvStream (stream : ByteStream) : RecvStream :=
  ⟨stream.data, stream.closed, stream.chunks.map .bytes⟩

-- There are as many bytes as are asked for, or the end of the stream is seen.
def Answers (stream : ByteStream) (toget : Nat) : Prop :=
  toget ≤ stream.data.length ∨ stream.closed = true

instance {stream : ByteStream} {toget : Nat} : Decidable (stream.Answers toget) :=
  inferInstanceAs <| Decidable (_ ∨ _)

variable {stream : ByteStream} {toget n size : Nat} {chunks : List Nat} {buffer pending : Buffer} {closed : Bool}

theorem callsAfter_bytes : ∃ chunks' : List Nat, callsAfter n (chunks.map .bytes) = some (chunks'.map .bytes) := by
  induction chunks generalizing n
  case nil               => cases n <;> exact ⟨[], rfl⟩
  case cons k chunks ih =>
    cases n
    case zero => exact ⟨k :: chunks, rfl⟩
    case succ => exact ih

theorem endOfStream_bytes (already : Nat) :
    RecvStream.endOfStream ⟨pending, closed, chunks.map .bytes⟩ already buffer =
      some ⟨if closed then already else -1, buffer, pending, closed, chunks.map .bytes⟩ := by
  cases closed
  case false => rfl
  case true  => rw [RecvStream.endOfStream, if_neg (by simp), if_neg (by omega)]; rfl

-- A read that falls short.
theorem recvLoop_short (ht : n + pending.length < toget) : ∃ chunks' : List Nat,
    RecvStream.recvLoop closed toget (chunks.map .bytes) n buffer pending = some
      ⟨if closed then (n + pending.length : Nat) else -1, buffer ++ pending, [], closed, chunks'.map .bytes⟩ := by
  induction chunks generalizing n buffer pending
  all_goals
    have hne : ¬(n : Int) = toget := by omega
    have hpos : ¬(n : Int) < 0 := by omega
    have hm : ((toget : Int) - n).toNat = toget - n := by omega
  case nil =>
    have htake : pending.take (toget - n) = pending := List.take_of_length_le <| by omega
    have hsum : ¬(n : Int) + pending.length = toget := by omega
    rw [List.map_nil, RecvStream.recvLoop, if_neg hne]
    simp only [hm, htake, hpos, and_false, ite_false, hsum, List.drop_length]
    exact ⟨[], @endOfStream_bytes [] (buffer ++ pending) [] closed (n + pending.length)⟩
  case cons k chunks ih =>
    rw [List.map_cons, RecvStream.recvLoop, if_neg hne]
    simp only [hm, hpos, ite_false]
    split
    case isTrue hgot  =>
      have hnil : pending = [] := by
        cases pending
        case nil  => rfl
        case cons =>
          have hlen := congrArg List.length hgot
          simp only [List.length_take, List.length_cons, List.length_nil] at hlen ht
          omega
      subst hnil
      rw [List.append_nil]
      exact ⟨chunks, endOfStream_bytes _⟩
    case isFalse hgot =>
      generalize hi : (pending.take (min (k + 1) (toget - n))).length = i
      have hle : i ≤ pending.length := hi ▸ List.length_take_le' ..
      have htake : pending.take (min (k + 1) (toget - n)) = pending.take i := by
        rw [List.take_eq_take_iff, ← hi, List.length_take]
        omega
      have hlen : (pending.drop i).length = pending.length - i := List.length_drop
      obtain ⟨chunks', ih⟩ := @ih (n + i) (buffer ++ pending.take i) (pending.drop i) (by omega)
      have hsum : n + i + (pending.length - i) = n + pending.length := by omega
      refine ⟨chunks', ?_⟩
      rw [htake]
      rw [hlen, hsum, List.append_assoc, List.take_append_drop] at ih
      exact ih

-- What is read is the next part of the stream.
theorem recvSocketStream_eq (stream : ByteStream) (ht : toget ≤ cfBufSize - 1) : ∃ chunks : List Nat,
    stream.recvStream.recvSocketStream toget = some
      ⟨if stream.Answers toget then (stream.data.take toget).length else -1, stream.data.take toget,
        recvStream ⟨stream.data.drop toget, chunks, stream.closed⟩⟩ := by
  by_cases hl : toget ≤ stream.data.length
  case pos =>
    have ⟨chunks', hc⟩ := @callsAfter_bytes toget stream.chunks
    rw [RecvStream.recvSocketStream_of_callsAfter ht hl hc, if_pos (.inl hl), List.length_take_of_le hl]
    exact ⟨chunks', rfl⟩
  case neg =>
    have ⟨chunks', hr⟩ := @recvLoop_short toget 0 stream.chunks [] stream.data stream.closed (by omega)
    have ha : stream.Answers toget ↔ stream.closed = true := or_iff_right hl
    rw [RecvStream.recvSocketStream, if_neg (by omega)]
    rw [List.take_of_length_le (by omega), List.drop_of_length_le (by omega)]
    refine ⟨chunks', hr.trans ?_⟩
    simp only [ha, Nat.zero_add, List.nil_append]
    rfl

theorem answers_iff (hn : n + toget ≤ size) :
    stream.Answers (size - n) ↔ stream.Answers toget ∧
      Answers ⟨stream.data.drop toget, chunks, stream.closed⟩ (size - (n + toget)) := by
  simp only [Answers, List.length_drop]
  cases stream.closed
  case false => simp; omega
  case true  => simp

end ByteStream

-- The copy is not given up for another reason than what comes from the server.
structure CopyCalls.Ready (calls : CopyCalls) : Prop where
  length_le : calls.new.length ≤ cfBufSize - 20
  opened    : calls.opened = true
  sent      : calls.sent = true
  truncated : calls.truncated = true

instance {calls : CopyCalls} : Decidable calls.Ready :=
  decidable_of_iff (calls.new.length ≤ cfBufSize - 20 ∧ calls.opened ∧ calls.sent ∧ calls.truncated)
    ⟨fun ⟨hl, ho, hs, ht⟩ => ⟨hl, ho, hs, ht⟩, fun ⟨hl, ho, hs, ht⟩ => ⟨hl, ho, hs, ht⟩⟩

-- Some block looks like an error when it has been received into the buffer, over the one before it.
def looksRefusedIn : Nat → Buffer → List Buffer → Bool
  | _, _, []                           => false
  | n_read_total, buf, block :: blocks =>
    looksRefused n_read_total (receivedInto block buf) ||
      looksRefusedIn (n_read_total + copyBufSize) (receivedInto block buf) blocks

-- The blocks that the client asks for.
def copyBlocks (data : Buffer) : List Buffer :=
  blocks copyBufSize data.length data

section

variable {size fuel n toget k : Nat} {stream : ByteStream} {buf written block data : Buffer}

theorem looksRefused_nil : looksRefused n (receivedInto [] buf) = false := by
  have hh : receivedInto [] buf = '\x00' :: buf.drop 1 := rfl
  have hf : cfFailedStr.isPrefixOf ('\x00' :: buf.drop 1) = false := rfl
  have hc : (cfChangedStr1 ++ cfChangedStr2).isPrefixOf ('\x00' :: buf.drop 1) = false := rfl
  have hs : (assignedNumber (sscanf (Buffer.toCString ('\x00' :: buf.drop 1)) [.literal 't', .blanks, .int]) 0).getD
    (-1) = -1 := rfl
  rw [looksRefused, hh, hf, hc, hs]
  simp

theorem take_receivedInto : (receivedInto block buf).take block.length = block := by
  rw [receivedInto, overwrite, List.append_assoc, List.take_left]

theorem looksRefusedIn_blocks (hk : data.length ≤ k) :
    looksRefusedIn n buf (blocks copyBufSize k data) =
      (looksRefused n (receivedInto (data.take copyBufSize) buf) ||
        looksRefusedIn (n + copyBufSize) (receivedInto (data.take copyBufSize) buf)
          (blocks copyBufSize (k - 1) (data.drop copyBufSize))) := by
  by_cases hd : data = []
  case pos =>
    subst hd
    have hb (k : Nat) : blocks copyBufSize k [] = [] := by cases k <;> rfl
    rw [List.take_nil, List.drop_nil, looksRefused_nil, hb, hb]
    rfl
  case neg =>
    have hpos := List.length_pos_iff.mpr hd
    have ⟨k, hk⟩ := Nat.exists_eq_succ_of_ne_zero (show k ≠ 0 by omega)
    rw [hk, blocks, if_neg hd]
    rfl

-- The loop writes all the data that are asked for, unless it gives up.
theorem copyLoop_eq (hn : n ≤ size) (hf : size - n < fuel) (hk : (stream.data.take (size - n)).length ≤ k) :
    copyLoop size fuel stream.recvStream buf n written = some
      (if stream.Answers (size - n) ∧
          looksRefusedIn n buf (blocks copyBufSize k (stream.data.take (size - n))) = false then
        some (written ++ stream.data.take (size - n))
      else
        none) := by
  induction fuel generalizing stream buf n written k
  case zero         => omega
  case succ fuel ih =>
    rw [copyLoop]
    generalize htoget : (if copyBufSize ≤ size - n then copyBufSize else size - n) = toget
    have hle : n + toget ≤ size ∧ toget ≤ copyBufSize ∧ (n + toget = size ∨ toget = copyBufSize) := by
      split at htoget <;> omega
    have hb : copyBufSize ≤ cfBufSize - 1 := by decide
    have ⟨chunks, hr⟩ := stream.recvSocketStream_eq (show toget ≤ cfBufSize - 1 by omega)
    have ha := @ByteStream.answers_iff stream toget n size chunks hle.left
    have htake : (stream.data.take (size - n)).take copyBufSize = stream.data.take toget := by
      rw [List.take_take, List.take_eq_take_iff]
      omega
    have hdrop : (stream.data.take (size - n)).drop copyBufSize =
        (stream.data.drop toget).take (size - (n + toget)) := by
      rcases hle.right.right with he | he
      · have hsub : size - (n + toget) = 0 := by omega
        rw [hsub, List.take_zero, List.drop_of_length_le]
        exact (List.length_take_le ..).trans <| by omega
      · rw [List.drop_take, he, Nat.sub_sub]
    rw [looksRefusedIn_blocks hk, htake, hdrop]
    simp only [hr, Option.bind_eq_bind, Option.bind_some]
    by_cases hans : stream.Answers toget
    case neg =>
      rw [if_neg hans, if_pos rfl, if_neg fun (h : _ ∧ _) => hans (ha.mp h.left).left]
      rfl
    case pos =>
      have hv : ¬((stream.data.take toget).length : Int) = -1 := by omega
      rw [if_pos hans, if_neg hv, Int.toNat_natCast, take_receivedInto]
      cases hl : looksRefused n (receivedInto (stream.data.take toget) buf)
      case true  =>
        rw [if_pos rfl, Bool.true_or, if_neg fun (h : _ ∧ _) => nomatch h.right]
        rfl
      case false =>
        rw [if_neg Bool.false_ne_true, Bool.false_or]
        split
        case isTrue hend  =>
          have hzero : size - (n + toget) = 0 := by omega
          have hsub : size - n = toget := by omega
          have hnil : blocks copyBufSize (k - 1) [] = [] := by cases k - 1 <;> rfl
          rw [hzero] at ha
          rw [hzero, List.take_zero, hnil, hsub, if_pos ⟨hans, rfl⟩]
          rfl
        case isFalse hend =>
          have hfull : toget = copyBufSize := by omega
          have hrest : ((stream.data.drop toget).take (size - (n + toget))).length ≤ k - 1 := by
            rw [← hdrop, List.length_drop]
            have : copyBufSize = 2048 := rfl
            omega
          have ih := @ih (n + toget) (k - 1) ⟨stream.data.drop toget, chunks, stream.closed⟩
            (receivedInto (stream.data.take toget) buf) (written ++ stream.data.take toget) hle.left
            (by have : copyBufSize = 2048 := rfl; omega) hrest
          have hsum : size - n = toget + (size - (n + toget)) := by omega
          have hw : written ++ stream.data.take (size - n) =
              written ++ stream.data.take toget ++ (stream.data.drop toget).take (size - (n + toget)) := by
            rw [hsum, List.take_add, List.append_assoc]
          rw [hw, ih, ← hfull]
          simp only [ha, hans, true_and]

-- What is left in the file after the copy.
theorem copyRegularFileNet_eq (calls : CopyCalls) (size : Nat) (stream : ByteStream) (buf : Buffer) :
    copyRegularFileNet calls size stream.recvStream buf = some
      (if calls.Ready ∧ stream.Answers size ∧ looksRefusedIn 0 buf (copyBlocks <| stream.data.take size) = false then
        some <| ftruncate size stream.data
      else
        none) := by
  rw [copyRegularFileNet]
  have hl := @copyLoop_eq size (size + 1) 0 _ stream buf [] (Nat.zero_le _) (by omega) (Nat.le_refl _)
  rw [Nat.sub_zero, List.nil_append] at hl
  have hcut : ftruncate size (stream.data.take size) = ftruncate size stream.data := by
    rw [ftruncate, ftruncate, List.take_take, Nat.min_self, List.length_take]
    congr 2
    omega
  split
  case isTrue hc  =>
    rw [if_neg]
    · rfl
    · exact fun h => absurd hc <| by simp [h.left.opened, h.left.sent, h.left.length_le]
  case isFalse hc =>
    rw [hl]
    have hready : calls.Ready ↔ calls.truncated = true := by
      simp only [not_or, not_not, Nat.not_lt] at hc
      exact ⟨fun h => h.truncated, fun h => ⟨hc.left, hc.right.left, hc.right.right, h⟩⟩
    simp only [hready, Option.bind_eq_bind, Option.bind_some]
    by_cases hg : stream.Answers size ∧ looksRefusedIn 0 buf (copyBlocks <| stream.data.take size) = false
    case pos =>
      rw [if_pos]
      · simp only [hcut, hg, and_true]
        rfl
      · exact hg
    case neg =>
      rw [if_neg, if_neg (hg ∘ And.right)]
      · rfl
      · exact hg

theorem ftruncate_length (data : Buffer) : ftruncate data.length data = data := by
  rw [ftruncate, List.take_length, Nat.sub_self, List.replicate_zero, List.append_nil]

end

-- The bytes that the server puts on the connection in answer to the request.
def servedFile (now : Surroundings) (replyfile : CString) (s : ServerState) : Buffer :=
  (now.cfGetFile replyfile copyBufSize s []).2.2.reverse.flatMap fun
    | .stream payload => payload
    | _               => []

section

variable {now : Surroundings} {replyfile : CString} {sb : Stat} {data : Buffer} {s : ServerState}

theorem servedFile_eq (hu : Unchanging now (translatePath replyfile) sb data)
    (hr : transferRights s.conn sb = true) (hs : data.length ≤ s.sends) : servedFile now replyfile s = data := by
  have ht := Surroundings.cfGetFile_of_rights (t := []) hu hr hs copyBufSize
  have hb : (blocks Surroundings.getBlockSize data.length data).flatMap id = data := by
    rw [List.flatMap_id]
    exact Surroundings.flatten_blocks (by decide) (Nat.le_refl _)
  rw [servedFile, ht, List.reverse_append, List.reverse_reverse, List.flatMap_append, List.flatMap_map]
  exact hb

-- What is copied is right if and only if the data of the file come whole where they are taken. The copy of a file
-- that does not change succeeds if and only if none of its blocks looks like an error.
theorem copyRegularFileNet_iff (calls : CopyCalls) (buf : Buffer) :
    (∀ (source : Buffer) (size : Nat) (stream : ByteStream),
      (∀ file, copyRegularFileNet calls size stream.recvStream buf = some (some file) → file = source) ↔
        (calls.Ready → stream.Answers size →
          looksRefusedIn 0 buf (copyBlocks <| stream.data.take size) = false →
          ftruncate size stream.data = source)) ∧
    ∀ {now replyfile sb data s chunks closed}, Unchanging now (translatePath replyfile) sb data →
      transferRights s.conn sb = true → data.length ≤ s.sends →
      (copyRegularFileNet calls sb.size.toNat (ByteStream.recvStream ⟨servedFile now replyfile s, chunks, closed⟩) buf =
          some (some data) ↔
        calls.Ready ∧ looksRefusedIn 0 buf (copyBlocks data) = false) := by
  constructor
  case left  =>
    intro source size stream
    rw [copyRegularFileNet_eq]
    constructor
    case mp  => exact fun h hr ha hl => h _ <| by rw [if_pos ⟨hr, ha, hl⟩]
    case mpr =>
      intro h file hc
      have ⟨⟨hr, ha, hl⟩, hf⟩ := Option.ite_none_right_eq_some.mp <| Option.some.inj hc
      exact (Option.some.inj hf).symm.trans <| h hr ha hl
  case right =>
    intro now replyfile sb data s chunks closed hu hr hs
    have ha : ByteStream.Answers ⟨data, chunks, closed⟩ data.length := .inl <| Nat.le_refl _
    rw [servedFile_eq hu hr hs, hu.size, copyRegularFileNet_eq]
    simp only [ftruncate_length, List.take_length, ha, true_and]
    exact ⟨fun h => (Option.ite_none_right_eq_some.mp <| Option.some.inj h).left, fun h => by rw [if_pos h]⟩

end

def readyCalls : CopyCalls :=
  ⟨"/b".toList, true, true, true⟩

theorem copyRegularFileNet_calm :
    (∀ file, copyRegularFileNet readyCalls 2 (ByteStream.recvStream ⟨['a', 'b'], [], true⟩) [] = some (some file) →
      file = ['a', 'b']) ∧
    copyRegularFileNet readyCalls 1
      (ByteStream.recvStream ⟨servedFile .calm "/a".toList (publicState 1), [0], false⟩) [] = some (some ['x']) := by
  have hcalm : Unchanging .calm (translatePath "/a".toList) ⟨.regular, 0o644, 0, 0, 1, 0, 0, 0, 2, 1, 0, 1⟩ ['x'] :=
    ⟨rfl, fun _ => rfl, rfl, rfl⟩
  constructor
  case left  =>
    exact ((copyRegularFileNet_iff readyCalls []).left ['a', 'b'] 2 ⟨['a', 'b'], [], true⟩).mpr fun _ _ _ => rfl
  case right =>
    exact ((copyRegularFileNet_iff readyCalls []).right hcalm (by decide) (by decide)).mpr
      ⟨⟨by decide, rfl, rfl, rfl⟩, by decide +kernel⟩

-- A connection that is closed after the first byte leaves a zero in the file, and a file whose text is that of an
-- error is not copied.
theorem not_copyRegularFileNet :
    copyRegularFileNet readyCalls 2 (ByteStream.recvStream ⟨['a'], [], true⟩) [] = some (some ['a', '\x00']) ∧
    copyRegularFileNet readyCalls (cfChangedStr1 ++ cfChangedStr2).length
      (ByteStream.recvStream ⟨cfChangedStr1 ++ cfChangedStr2, [], false⟩) [] = some none := by
  decide +kernel

end CfEngine
