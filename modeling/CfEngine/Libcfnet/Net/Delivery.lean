import Mathlib.Data.List.TakeWhile
import CfEngine.Libcfnet.Net

namespace CfEngine

section

variable {n : Nat} {c : Char} {s : CString} {status : TransactionStatus}

theorem toDigits_ne_terminator : ∀ c ∈ Nat.toDigits 10 n, c ≠ '\x00' := by
  intro c hc he
  have := Nat.isDigit_of_mem_toDigits (by decide) (by decide) hc
  simp [he] at this

theorem scanNumber_of_digits (hn : s ≠ []) (h : ∀ c ∈ s, c.isDigit = true) :
    scanNumber s = some ((decimal s : Int), []) := by
  have htake : s.takeWhile Char.isDigit = s := List.takeWhile_eq_self_iff.mpr h
  have hdrop : s.dropWhile Char.isDigit = [] := List.dropWhile_eq_nil_iff.mpr h
  cases s
  case nil => contradiction
  case cons c s =>
    have hc := h c <| List.mem_cons_self ..
    simp only [scanNumber, List.dropWhile_cons, isspace_of_isDigit hc, Bool.false_eq_true,
      ite_false]
    split
    case h_1 he =>
      cases he
      simp at hc
    case h_2 he =>
      cases he
      simp at hc
    case h_3 => simp [htake, hdrop]

theorem transactionHeader_eq (hn : n ≤ cfBufSize - cfInbandOffset) :
    ∃ k, transactionHeader status n =
      status.char :: ' ' :: Nat.toDigits 10 n ++ List.replicate k '\x00' ∧
      (transactionHeader status n).length = cfInbandOffset := by
  have hl : (Nat.toDigits 10 n).length ≤ 4 :=
    Nat.length_toDigits_le_iff (by decide) (by decide) |>.mpr <| Nat.lt_of_le_of_lt hn <| by decide
  have htake : (status.char :: ' ' :: Nat.toDigits 10 n).take (cfInbandOffset - 1) =
      status.char :: ' ' :: Nat.toDigits 10 n := by
    apply List.take_of_length_le
    simp only [List.length_cons, cfInbandOffset]
    omega
  have htoString : (toString n).toList = Nat.toDigits 10 n := by
    rw [Nat.toString_eq_repr, Nat.toList_repr]
  refine ⟨_, by rw [transactionHeader, htoString, htake], ?_⟩
  simp only [transactionHeader, htoString, htake, List.length_append, List.length_replicate]
  simp only [List.length_cons, cfInbandOffset]
  omega

theorem toCString_transactionHeader (hn : n ≤ cfBufSize - cfInbandOffset) :
    (transactionHeader status n).toCString = status.char :: ' ' :: Nat.toDigits 10 n := by
  have ⟨k, he, _⟩ := @transactionHeader_eq _ status hn
  rw [he, Buffer.toCString, List.takeWhile_append_of_pos]
  · cases k <;> simp [List.replicate_succ]
  · intro c hc
    cases hc
    case head => cases status <;> decide
    case tail hc =>
      cases hc
      case head    => decide
      case tail hc => simpa using toDigits_ne_terminator c hc

theorem scanProto_transactionHeader (hn : n ≤ cfBufSize - cfInbandOffset) :
    RecvStream.scanProto (transactionHeader status n).toCString = (status.char, n) := by
  have hdigits (c : Char) (hc : c ∈ Nat.toDigits 10 n) : c.isDigit = true :=
    Nat.isDigit_of_mem_toDigits (show 0 < 10 by decide) (by decide) hc
  have hscan := scanNumber_of_digits Nat.toDigits_ne_nil hdigits
  have hdrop : (' ' :: Nat.toDigits 10 n).dropWhile isspace = Nat.toDigits 10 n := by
    rw [List.dropWhile_cons_of_pos (by decide), List.dropWhile_eq_self_iff]
    exact fun hl => by simp [isspace_of_isDigit <| hdigits _ <| List.getElem_mem hl]
  have hunsigned : toUnsigned (decimal (Nat.toDigits 10 n)) = n := by
    rw [decimal, Nat.ofDigitChars_ten_toDigits]
    have := Nat.lt_of_le_of_lt hn <| show cfBufSize - cfInbandOffset < 2 ^ 32 by decide
    simp only [toUnsigned]
    omega
  simp [RecvStream.scanProto, toCString_transactionHeader hn, sscanf, ScanDirective.scan, hdrop,
    hscan, hunsigned, assignedText, assignedNumber]

end
-- The calls that are left after a read of `k` bytes, unless one of the calls for it is interrupted.
def callsAfter : Nat → List StreamCall → Option (List StreamCall)
  | 0, calls                   => some calls
  | _ + 1, []                  => some []
  | _ + 1, .interrupted :: _   => none
  | k + 1, .bytes n :: calls   => callsAfter (k - n) calls

theorem sendLoop_eq {calls : List StreamCall} {buffer : Buffer} :
    sendLoop calls buffer = buffer := by
  induction calls generalizing buffer
  case nil => rfl
  case cons call calls ih =>
    cases call
    case interrupted => exact ih
    case bytes n =>
      simp only [sendLoop, ih]
      split
      case isTrue  => exact List.take_append_drop ..
      case isFalse h =>
        apply List.take_of_length_le
        rw [List.length_take] at h
        omega

namespace RecvStream

variable {closed : Bool} {toget n : Nat} {already : Int} {calls rest : List StreamCall}
  {buffer pending : Buffer} {stream : RecvStream} {r : Received}

theorem endOfStream_eq (h : stream.endOfStream already buffer = some r) (hv : r.value ≠ -1) :
    r.value = already ∧ r.stream = stream := by
  simp only [endOfStream] at h
  split at h
  case isTrue =>
    cases Option.some.inj h
    contradiction
  case isFalse =>
    split at h
    case isTrue  => cases h
    case isFalse =>
      cases Option.some.inj h
      exact ⟨rfl, rfl⟩

theorem recvLoop_self :
    recvLoop closed toget calls toget buffer pending =
      some ⟨toget, buffer, pending, closed, calls⟩ := by
  unfold recvLoop
  exact if_pos rfl

-- Without an interruption the read gets the bytes that are asked for.
theorem recvLoop_of_callsAfter (ht : n ≤ toget) (hp : toget - n ≤ pending.length)
    (h : callsAfter (toget - n) calls = some rest) :
    recvLoop closed toget calls n buffer pending = some
      ⟨toget, buffer ++ pending.take (toget - n), pending.drop (toget - n), closed, rest⟩ := by
  induction calls generalizing n buffer pending
  all_goals
    cases Nat.eq_or_lt_of_le ht
    case' inl he =>
      subst he
      rw [Nat.sub_self] at h ⊢
      cases Option.some.inj h
      simpa using recvLoop_self
    case' inr hlt =>
      have ⟨k, hk⟩ : ∃ k, toget - n = k + 1 := Nat.exists_eq_succ_of_ne_zero <| by omega
      have hne : (n : Int) ≠ toget := by omega
      have hm : ((toget : Int) - n).toNat = toget - n := by omega
      have hpos : ¬(n : Int) < 0 := by omega
      rw [hk] at h
  case nil.inr =>
    cases Option.some.inj h
    have hl : (pending.take (toget - n)).length = toget - n := List.length_take_of_le hp
    have hsum : (n : Int) + (toget - n : Nat) = toget := by omega
    rw [recvLoop, if_neg hne]
    simp only [hm, hl, hpos, and_false, ite_false, hsum, ite_true]
  case cons.inr call calls ih =>
    cases call
    case interrupted => cases h
    case bytes j =>
      have hl : (pending.take (min (j + 1) (toget - n))).length = min (j + 1) (toget - n) :=
        List.length_take_of_le <| by omega
      have hgot : pending.take (min (j + 1) (toget - n)) ≠ [] := by
        apply List.ne_nil_of_length_pos
        omega
      have hrest : toget - (n + min (j + 1) (toget - n)) = k - j := by omega
      have hsum : (n : Int) + (min (j + 1) (toget - n) : Nat) =
        (n + min (j + 1) (toget - n) : Nat) := rfl
      rw [recvLoop, if_neg hne]
      simp only [hm, hgot, ite_false, hpos, hl, hsum]
      rw [ih (by omega) (by rw [List.length_drop]; omega) (hrest ▸ h), hrest]
      generalize hi : min (j + 1) (toget - n) = i
      have hsplit : toget - n = i + (k - j) := by omega
      rw [hsplit, List.take_add, List.drop_drop, List.append_assoc]

-- Bytes are lost to interruptions only, and a read that falls short has met the end of the stream.
theorem recvLoop_le (ht : already ≤ toget)
    (h : recvLoop closed toget calls already buffer pending = some r) (hv : r.value ≠ -1) :
    r.value + r.stream.pending.length ≤ already + pending.length ∧
      (r.value = toget ∨ r.stream.pending = []) := by
  induction calls generalizing already buffer pending
  case nil =>
    rw [recvLoop] at h
    split at h
    case isTrue he =>
      cases Option.some.inj h
      exact ⟨Int.le_refl _, .inl he⟩
    case isFalse hne =>
      have hl := List.length_take (l := pending) (i := (toget - already).toNat)
      simp only at h
      split at h
      case isTrue  => cases h
      case isFalse =>
        split at h
        case isTrue he =>
          cases Option.some.inj h
          refine ⟨?_, .inl rfl⟩
          simp only [List.length_drop]
          omega
        case isFalse hne' =>
          have ⟨hval, hs⟩ := endOfStream_eq h hv
          have hnil : pending.drop (pending.take (toget - already).toNat).length = [] := by
            apply List.drop_eq_nil_of_le
            omega
          simp only [hval, hs, hnil, List.length_nil]
          exact ⟨by omega, .inr trivial⟩
  case cons call calls ih =>
    unfold recvLoop at h
    split at h
    case isTrue he =>
      cases Option.some.inj h
      exact ⟨Int.le_refl _, .inl he⟩
    case isFalse hne =>
      cases call
      case interrupted =>
        have ⟨hle, hend⟩ := ih (by omega) h
        exact ⟨by omega, hend⟩
      case bytes j =>
        have hl := List.length_take (l := pending) (i := min (j + 1) (toget - already).toNat)
        simp only at h
        split at h
        case isTrue hnil =>
          have ⟨hval, hs⟩ := endOfStream_eq h hv
          rw [hnil, List.length_nil] at hl
          have hp : pending = [] := List.eq_nil_of_length_eq_zero <| by omega
          simp [hval, hs, hp]
        case isFalse =>
          split at h
          case isTrue  => cases h
          case isFalse =>
            have ⟨hle, hend⟩ := ih (by omega) h
            rw [List.length_drop] at hle
            exact ⟨by omega, hend⟩

-- An interruption loses a byte.
theorem recvLoop_lt (ht : n ≤ toget) (hp : toget - n ≤ pending.length)
    (hc : callsAfter (toget - n) calls = none)
    (h : recvLoop closed toget calls n buffer pending = some r) (hv : r.value ≠ -1) :
    r.value + r.stream.pending.length < n + pending.length := by
  induction calls generalizing n buffer pending
  all_goals
    cases Nat.eq_or_lt_of_le ht
    case' inl he =>
      rw [he, Nat.sub_self] at hc
      cases hc
    case' inr hlt =>
      have ⟨k, hk⟩ : ∃ k, toget - n = k + 1 := Nat.exists_eq_succ_of_ne_zero <| by omega
      have hne : (n : Int) ≠ toget := by omega
      have hm : ((toget : Int) - n).toNat = toget - n := by omega
      have hpos : ¬(n : Int) < 0 := by omega
      rw [hk] at hc
  case nil.inr => cases hc
  case cons.inr call calls ih =>
    unfold recvLoop at h
    rw [if_neg hne] at h
    cases call
    case interrupted =>
      have ⟨hle, _⟩ := recvLoop_le (by omega) h hv
      omega
    case bytes j =>
      have hl := List.length_take (l := pending) (i := min (j + 1) (toget - n))
      simp only [hm, hpos, ite_false] at h
      split at h
      case isTrue hnil =>
        rw [hnil, List.length_nil] at hl
        omega
      case isFalse =>
        have hrest : toget - (n + min (j + 1) (toget - n)) = k - j := by omega
        have hlen : (pending.take (min (j + 1) (toget - n))).length = min (j + 1) (toget - n) := by
          omega
        rw [hlen] at h
        have hlt := ih (by omega) (by rw [List.length_drop]; omega) (hrest ▸ hc) h
        rw [List.length_drop] at hlt
        omega

theorem recvSocketStream_of_callsAfter (ht : toget ≤ cfBufSize - 1)
    (hp : toget ≤ stream.pending.length) (h : callsAfter toget stream.calls = some rest) :
    stream.recvSocketStream toget = some ⟨toget, stream.pending.take toget,
      stream.pending.drop toget, stream.closed, rest⟩ := by
  rw [recvSocketStream, if_neg <| Nat.not_lt.mpr ht]
  exact recvLoop_of_callsAfter (Nat.zero_le _) hp h

theorem recvSocketStream_le (h : stream.recvSocketStream toget = some r) (hv : r.value ≠ -1) :
    r.value + r.stream.pending.length ≤ stream.pending.length ∧
      (r.value = toget ∨ r.stream.pending = []) := by
  rw [recvSocketStream] at h
  split at h
  case isTrue =>
    cases Option.some.inj h
    contradiction
  case isFalse =>
    have ⟨hle, hend⟩ := recvLoop_le (Int.natCast_nonneg _) h hv
    exact ⟨by omega, hend⟩

theorem recvSocketStream_lt (hp : toget ≤ stream.pending.length)
    (hc : callsAfter toget stream.calls = none)
    (h : stream.recvSocketStream toget = some r) (hv : r.value ≠ -1) :
    r.value + r.stream.pending.length < stream.pending.length := by
  rw [recvSocketStream] at h
  split at h
  case isTrue =>
    cases Option.some.inj h
    contradiction
  case isFalse =>
    have hlt := recvLoop_lt (Nat.zero_le _) hp hc h hv
    omega

end RecvStream

-- The data and the status of a call of `SendTransaction`.
structure Message where
  data   : Buffer
  status : TransactionStatus

def Message.Sendable (message : Message) : Prop :=
  1 ≤ message.data.length ∧ message.data.length ≤ cfBufSize - cfInbandOffset

-- What is put on the stream for a message.
def Message.packet (message : Message) : Buffer :=
  transactionHeader message.status message.data.length ++ message.data

-- The calls of `SendTransaction` for the messages, each with the calls of `send` that it makes.
def sendTransactions : List (Message × List StreamCall) → Outcome Buffer
  | []                        => some []
  | (message, calls) :: sends => do
    let sent ← sendTransaction calls message.data message.data.length message.status
    let rest ← sendTransactions sends
    return sent ++ rest

-- As many calls of `ReceiveTransaction` as there are messages return them.
def RecvStream.Delivers : List Message → RecvStream → Prop
  | [], _                         => True
  | message :: messages, stream => ∃ r more, stream.receiveTransaction = some (r, more) ∧
    r.value = message.data.length ∧ r.buffer = message.data ∧
    (more = true ↔ message.status = .more) ∧ RecvStream.Delivers messages r.stream

-- The numbers of bytes that are read for the messages.
def readSizes (messages : List Message) : List Nat :=
  messages.flatMap fun message => [cfInbandOffset, message.data.length]

-- No call of `recv` is interrupted until the given numbers of bytes have been read.
def Uninterrupted : List Nat → List StreamCall → Prop
  | [], _             => True
  | k :: sizes, calls => ∃ rest, callsAfter k calls = some rest ∧ Uninterrupted sizes rest

section

variable {message : Message} {messages : List Message} {sends : List (Message × List StreamCall)}
  {stream : RecvStream} {r : Received} {more : Bool} {tail : Buffer} {rest rest' : List StreamCall}

theorem Message.Sendable.sendTransaction_eq (h : message.Sendable) {calls : List StreamCall} :
    sendTransaction calls message.data message.data.length message.status =
      some message.packet := by
  have ⟨hpos, hle⟩ := h
  have ⟨_, _, hl⟩ := @transactionHeader_eq _ message.status hle
  have hlen : sendTransactionLength message.data message.data.length = message.data.length :=
    if_neg <| Nat.ne_of_gt hpos
  simp only [sendTransaction, hlen, Nat.not_lt.mpr hle, ite_false, Nat.lt_irrefl, sendSocketStream,
    sendLoop_eq, List.take_length]
  rw [List.take_of_length_le]
  · rfl
  · rw [List.length_append, hl, Nat.add_comm]

theorem Message.Sendable.length_packet (h : message.Sendable) :
    message.packet.length = cfInbandOffset + message.data.length := by
  have ⟨_, _, hl⟩ := @transactionHeader_eq _ message.status h.right
  rw [packet, List.length_append, hl]

theorem sendTransactions_eq (h : ∀ send ∈ sends, send.1.Sendable) :
    sendTransactions sends = some (sends.flatMap fun send => send.1.packet) := by
  induction sends
  case nil => rfl
  case cons send sends ih =>
    have ⟨hs, h⟩ := List.forall_mem_cons.mp h
    simp [sendTransactions, hs.sendTransaction_eq, ih h]

theorem RecvStream.receiveTransaction_of_callsAfter (hm : message.Sendable)
    (hp : stream.pending = message.packet ++ tail)
    (h : callsAfter cfInbandOffset stream.calls = some rest)
    (h' : callsAfter message.data.length rest = some rest') :
    stream.receiveTransaction = some
      (⟨message.data.length, message.data, tail, stream.closed, rest'⟩,
        decide (message.status = .more)) := by
  have ⟨_, hle⟩ := hm
  have ⟨_, _, hl⟩ := @transactionHeader_eq _ message.status hle
  have htake : stream.pending.take cfInbandOffset =
      transactionHeader message.status message.data.length := by
    rw [hp, Message.packet, List.append_assoc, ← hl, List.take_left]
  have hdrop : stream.pending.drop cfInbandOffset = message.data ++ tail := by
    rw [hp, Message.packet, List.append_assoc, ← hl, List.drop_left]
  have hheader := recvSocketStream_of_callsAfter (by decide)
    (by rw [hp, List.length_append, hm.length_packet]; omega) h
  have hdata : RecvStream.recvSocketStream ⟨message.data ++ tail, stream.closed, rest⟩
      message.data.length = some _ :=
    recvSocketStream_of_callsAfter (Nat.le_trans hle <| by decide)
      (by rw [List.length_append]; exact Nat.le_add_right ..) h'
  have hne : ¬((cfInbandOffset : Nat) : Int) = -1 := by decide
  have hauth : ¬(transactionHeader message.status message.data.length).toCString.take 5 =
      ['C', 'A', 'U', 'T', 'H'] := by
    rw [toCString_transactionHeader hle]
    cases message.status <;> simp [TransactionStatus.char]
  have hmore : decide (message.status.char = 'm') = decide (message.status = .more) := by
    cases message.status <;> rfl
  simp only [receiveTransaction, hheader, Option.bind_eq_bind, Option.bind_some, hne, ite_false,
    htake, scanProto_transactionHeader hle, Nat.not_lt.mpr hle, hauth, hdrop, hdata, List.take_left,
    List.drop_left, hmore, pure]

-- The header has been read to its end if there is something after it.
theorem RecvStream.receiveTransaction_cases (h : stream.receiveTransaction = some (r, more))
    (hv : 1 ≤ r.value) : ∃ header len, stream.recvSocketStream cfInbandOffset = some header ∧
      header.value = cfInbandOffset ∧ (scanProto header.buffer.toCString).2 = len ∧
      header.stream.recvSocketStream len = some r := by
  have ⟨header, hheader, h⟩ := Option.bind_eq_some_iff.mp h
  split at h
  case isTrue hn =>
    cases Option.some.inj h
    omega
  case isFalse hn =>
    simp only at h
    split at h
    case isTrue =>
      cases Option.some.inj h
      contradiction
    case isFalse =>
      split at h
      case isTrue =>
        cases Option.some.inj h
        contradiction
      case isFalse =>
        have ⟨received, hr, h⟩ := Option.bind_eq_some_iff.mp h
        cases Option.some.inj h
        refine ⟨header, _, hheader, ?_, rfl, hr⟩
        have ⟨_, hend⟩ := recvSocketStream_le hheader hn
        have ⟨hle, _⟩ := recvSocketStream_le hr (by omega)
        cases hend
        case inl hend => exact hend
        case inr hend =>
          rw [hend, List.length_nil] at hle
          omega

theorem RecvStream.receiveTransaction_le (h : stream.receiveTransaction = some (r, more))
    (hv : 1 ≤ r.value) :
    cfInbandOffset + r.value + r.stream.pending.length ≤ stream.pending.length := by
  have ⟨header, len, hheader, hval, _, hr⟩ := receiveTransaction_cases h hv
  have ⟨hle, _⟩ := recvSocketStream_le hheader (by rw [hval]; decide)
  have ⟨hle', _⟩ := recvSocketStream_le hr (by omega)
  omega

-- An interruption makes a later byte part of the message.
theorem RecvStream.receiveTransaction_lt (hm : message.Sendable)
    (hp : stream.pending = message.packet ++ tail)
    (hu : ¬Uninterrupted [cfInbandOffset, message.data.length] stream.calls)
    (h : stream.receiveTransaction = some (r, more)) (hv : 1 ≤ r.value) :
    cfInbandOffset + r.value + r.stream.pending.length < stream.pending.length := by
  have ⟨header, len, hheader, hval, hlen, hr⟩ := receiveTransaction_cases h hv
  have hl := hm.length_packet
  have hle : cfInbandOffset ≤ stream.pending.length := by
    rw [hp, List.length_append, hl]
    omega
  have hne : header.value ≠ -1 := by
    rw [hval]
    decide
  have ⟨hle', _⟩ := recvSocketStream_le hr (by omega)
  cases hc : callsAfter cfInbandOffset stream.calls
  case none =>
    have hlt := recvSocketStream_lt hle hc hheader hne
    omega
  case some rest =>
    cases Option.some.inj <| hheader.symm.trans <| recvSocketStream_of_callsAfter (by decide) hle hc
    have ⟨_, _, hlen'⟩ := @transactionHeader_eq _ message.status hm.right
    rw [hp, Message.packet, List.append_assoc, ← hlen', List.take_left,
      scanProto_transactionHeader hm.right] at hlen
    subst hlen
    have hc' : callsAfter message.data.length rest = none := by
      cases hc' : callsAfter message.data.length rest
      case none => rfl
      case some rest' => exact absurd ⟨rest, hc, rest', hc', trivial⟩ hu
    have hlt := recvSocketStream_lt (by simp only [hp, List.length_drop, List.length_append]; omega)
      hc' hr (by omega)
    simp only [List.length_drop] at hlt
    omega

theorem RecvStream.Delivers.length_le (hm : ∀ message ∈ messages, message.Sendable)
    (h : stream.Delivers messages) : (readSizes messages).sum ≤ stream.pending.length := by
  induction messages generalizing stream
  case nil => exact Nat.zero_le _
  case cons message messages ih =>
    have ⟨hs, hm⟩ := List.forall_mem_cons.mp hm
    have ⟨r, more, hr, hv, _, _, h⟩ := h
    have hle := receiveTransaction_le hr <| by
      have := hs.left
      omega
    have := ih hm h
    simp only [readSizes, List.flatMap_cons, List.sum_append, List.sum_cons, List.sum_nil] at this ⊢
    omega

theorem length_flatMap_packet (hm : ∀ message ∈ messages, message.Sendable) :
    (messages.flatMap Message.packet).length = (readSizes messages).sum := by
  induction messages
  case nil => rfl
  case cons message messages ih =>
    have ⟨hs, hm⟩ := List.forall_mem_cons.mp hm
    have := ih hm
    simp only [readSizes, List.flatMap_cons, List.sum_append, List.sum_cons, List.sum_nil,
      List.length_append, hs.length_packet] at this ⊢
    omega

theorem RecvStream.delivers_iff_uninterrupted (hm : ∀ message ∈ messages, message.Sendable)
    (hp : stream.pending = messages.flatMap Message.packet) :
    stream.Delivers messages ↔ Uninterrupted (readSizes messages) stream.calls := by
  induction messages generalizing stream
  case nil => exact iff_of_true trivial trivial
  case cons message messages ih =>
    have ⟨hs, hm'⟩ := List.forall_mem_cons.mp hm
    constructor
    case mpr =>
      intro ⟨rest, h, rest', h', hu⟩
      have hr := receiveTransaction_of_callsAfter hs hp h h'
      exact ⟨_, _, hr, rfl, rfl, decide_eq_true_iff, ih hm' rfl |>.mpr hu⟩
    case mp =>
      intro ⟨r, more, hr, hv, hb, hmore, hd⟩
      have hpos : 1 ≤ r.value := by
        have := hs.left
        omega
      by_cases hu : Uninterrupted [cfInbandOffset, message.data.length] stream.calls
      case neg =>
        have hlt := receiveTransaction_lt hs hp hu hr hpos
        have hle := hd.length_le hm'
        have hl := length_flatMap_packet hm'
        rw [hp, List.flatMap_cons, List.length_append, hs.length_packet] at hlt
        omega
      case pos =>
        have ⟨rest, h, rest', h', _⟩ := hu
        cases Option.some.inj <| (receiveTransaction_of_callsAfter hs hp h h').symm.trans hr
        exact ⟨rest, h, rest', h', ih hm' rfl |>.mp hd⟩

end

-- The messages are delivered exactly if none of the calls of `recv` for them is interrupted.
theorem transactions_delivered_iff {sends : List (Message × List StreamCall)} {closed : Bool}
    {calls : List StreamCall} (h : ∀ send ∈ sends, send.1.Sendable) :
    ∃ sent, sendTransactions sends = some sent ∧
      (RecvStream.Delivers (sends.map Prod.fst) ⟨sent, closed, calls⟩ ↔
        Uninterrupted (readSizes (sends.map Prod.fst)) calls) := by
  refine ⟨_, sendTransactions_eq h, ?_⟩
  apply RecvStream.delivers_iff_uninterrupted
  case hm => exact List.forall_mem_map.mpr h
  case hp => rw [List.flatMap_map]

def helloMessage : Message where
  data   := ['h', 'i']
  status := .more

theorem helloMessage_delivered : ∃ sent,
    sendTransactions [(helloMessage, [.interrupted, .bytes 3]), (helloMessage, [])] = some sent ∧
      RecvStream.Delivers [helloMessage, helloMessage] ⟨sent, true, [.bytes 0, .bytes 6]⟩ := by
  have h : ∀ send ∈ [(helloMessage, [StreamCall.interrupted, StreamCall.bytes 3]), (helloMessage, [])],
      send.1.Sendable := by
    simp only [List.forall_mem_cons]
    exact ⟨⟨by decide, by decide⟩, ⟨by decide, by decide⟩, nofun⟩
  obtain ⟨sent, hsent, hdelivers⟩ := transactions_delivered_iff h
  exact ⟨sent, hsent, hdelivers.mpr ⟨_, rfl, _, rfl, _, rfl, _, rfl, trivial⟩⟩

-- The first call of `recv` is interrupted, and the next one writes before the start of the buffer.
theorem helloMessage_not_delivered : ∃ sent,
    sendTransactions [(helloMessage, [])] = some sent ∧ helloMessage.Sendable ∧
      ¬RecvStream.Delivers [helloMessage] ⟨sent, true, [.interrupted]⟩ := by
  refine ⟨helloMessage.packet, rfl, ⟨by decide, by decide⟩, fun ⟨r, more, hr, _⟩ => ?_⟩
  have hnone : RecvStream.receiveTransaction ⟨helloMessage.packet, true, [.interrupted]⟩ =
    none := rfl
  exact nomatch hnone.symm.trans hr

end CfEngine
