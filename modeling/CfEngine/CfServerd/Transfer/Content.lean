import CfEngine.CfServerd.Transfer

namespace CfEngine

namespace Event

-- The data that the peer has from the event, in a transfer that is encrypted or not.
def fileData (crypto : Crypto) (key : Option Buffer) (secure : Bool) : Event → Option Buffer
  | transaction payload _ _ => if secure then some (crypto.decrypt key payload) else none
  | stream payload          => if secure then none else some payload
  | _                       => none

def status : Event → Option TransactionStatus
  | transaction _ _ status => some status
  | _                      => none

end Event

-- The file has the given data, and does not change during the transfer.
structure Unchanging (now : Surroundings) (filename : CString) (sb : Stat) (data : Buffer) : Prop where
  stat   : now.fs.stat filename = some sb
  restat : ∀ k, now.restat filename k = some sb
  read   : now.fs.read filename = some (some data)
  size   : sb.size.toNat = data.length

def Crypto.Inverts (crypto : Crypto) (key : Option Buffer) : Prop :=
  ∀ text, ∃ out, crypto.encrypt key text = some out ∧ crypto.decrypt key out = text

namespace Surroundings

def transfer (now : Surroundings) (crypto : Crypto) (secure : Bool) (replyfile : CString)
    (buf_size : Nat) : Serving Unit :=
  if secure then
    now.cfEncryptGetFile crypto replyfile buf_size
  else
    now.cfGetFile replyfile buf_size

variable {now : Surroundings} {crypto : Crypto} {key : Option Buffer} {filename : CString} {sb : Stat}
  {data chunk : Buffer} {s : ServerState} {t : List Event} {size total count fuel interval : Nat}

theorem sizeInRound_eq (hr : ∀ k, now.restat filename k = some sb) :
    now.sizeInRound filename interval count sb.size.toNat = some sb.size.toNat := by
  rw [sizeInRound]
  split
  case isTrue  => rw [hr]; rfl
  case isFalse => rfl

theorem flatten_blocks (hp : 0 < size) (h : data.length ≤ fuel) :
    (blocks size fuel data).flatten = data := by
  induction fuel generalizing data
  case zero         => simp [List.eq_nil_of_length_eq_zero <| Nat.le_zero.mp h, blocks]
  case succ fuel ih =>
    rw [blocks]
    split
    case isTrue hn  => simp [hn]
    case isFalse hn =>
      have hl := List.length_pos_iff.mpr hn
      have hd : (data.drop size).length ≤ fuel := by
        rw [List.length_drop]
        omega
      rw [List.flatten_cons, ih hd, List.take_append_drop]

-- A block is sent as it has been read.
theorem sendlen_eq (h : data.length + total = size) (hn : data ≠ []) (sendlen : Int) :
    (if 0 < ((size : Int) - total) / getBlockSize then (getBlockSize : Int)
      else if size ≠ 0 then (size : Int) - total else sendlen).toNat =
    (data.take getBlockSize).length := by
  have hl := List.length_pos_iff.mpr hn
  rw [List.length_take, getBlockSize]
  split
  case isTrue  => omega
  case isFalse =>
    rw [if_pos (by omega)]
    omega

theorem getFileLoop_spec (hr : ∀ k, now.restat filename k = some sb) (hd : data.length ≤ fuel)
    (ht : data.length + total = sb.size.toNat) (hs : data.length ≤ s.sends) {sendlen : Int} :
    (now.getFileLoop filename interval (blocks getBlockSize fuel data) count total sendlen
      sb.size.toNat).Ensures s t fun _ _ t' =>
        t' = ((blocks getBlockSize fuel data).map Event.stream).reverse ++ t := by
  induction fuel generalizing data count total sendlen s t
  case zero         => simp [blocks, getFileLoop]
  case succ fuel ih =>
    rw [blocks]
    split
    case isTrue hn  => simp [getFileLoop]
    case isFalse hn =>
      have hl := List.length_pos_iff.mpr hn
      have hsends : 0 < s.sends := Nat.lt_of_lt_of_le hl hs
      have htake : (data.take getBlockSize).length = min getBlockSize data.length := List.length_take
      have hdrop : (data.drop getBlockSize).length = data.length - getBlockSize := List.length_drop
      have hblock : 0 < getBlockSize := by decide
      rw [getFileLoop, sizeInRound_eq hr]
      simp only [ne_eq, not_true_eq_false, ite_false, Traced.ensures_bind,
        Serving.ensures_sendSocketStream, Traced.then_some, decide_eq_true hsends, ite_true]
      rw [sendlen_eq ht hn, List.take_left]
      have hrest : (data.drop getBlockSize).length ≤ s.sends - 1 := by omega
      apply Traced.Ensures.imp
      · exact ih (s := { s with sends := s.sends - 1 }) (by omega) (by omega) hrest
      · intro _ _ t' h
        simp [h]

theorem cfGetFile_of_rights (hu : Unchanging now (translatePath filename) sb data)
    (hr : transferRights s.conn sb = true) (hs : data.length ≤ s.sends) (buf_size : Nat) :
    (now.cfGetFile filename buf_size).Ensures s t fun _ _ t' =>
      t' = ((blocks getBlockSize data.length data).map Event.stream).reverse ++
        .opened .content (translatePath filename) :: t := by
  have hf : now.statFirst (translatePath filename) = sb := by rw [statFirst, hu.stat, Option.getD_some]
  simp only [cfGetFile, hf, hu.read, hr, Traced.ensures_bind, Traced.ensures_emit, Traced.then_some,
    Traced.ensures_get, not_true_eq_false, ite_false]
  exact getFileLoop_spec hu.restat (Nat.le_refl _) hu.size.symm hs

end Surroundings

-- The events of a loop that encrypts the data block by block.
structure EncryptedBlocks (crypto : Crypto) (key : Option Buffer) (data : Buffer)
    (events : List Event) : Prop where
  content : (events.filterMap <| Event.fileData crypto key true).reverse.flatten = data
  lengths : ∀ payload status, Event.transaction payload none status ∉ events
  last    : ∃ k, events.filterMap Event.status = .done :: List.replicate k .more
  sent    : ∃ payload len status, Event.transaction payload len status ∈ events ∧
    payload.length % 8 = 0

namespace EncryptedBlocks

variable {crypto : Crypto} {key : Option Buffer} {data data' out : Buffer} {events : List Event}
  {len : Int}

theorem single (hd : crypto.decrypt key out = data) (hm : out.length % 8 = 0) :
    EncryptedBlocks crypto key data [.transaction out (some len) .done, .cipher key] where
  content := by simp [Event.fileData, hd]
  lengths := by simp
  last    := ⟨0, rfl⟩
  sent    := ⟨_, _, _, .head _, hm⟩

theorem append (h : EncryptedBlocks crypto key data' events) (len : Int)
    (hd : crypto.decrypt key out = data) :
    EncryptedBlocks crypto key (data ++ data')
      (events ++ [.transaction out (some len) .more, .cipher key]) where
  content := by simp [Event.fileData, hd, h.content]
  lengths := by simpa using h.lengths
  last    := by
    have ⟨k, hk⟩ := h.last
    exact ⟨k + 1, by simp [hk, Event.status, List.replicate_succ']⟩
  sent    := by
    have ⟨payload, len, status, he, hm⟩ := h.sent
    exact ⟨payload, len, status, List.mem_append_left _ he, hm⟩

end EncryptedBlocks

namespace Surroundings

variable {now : Surroundings} {crypto : Crypto} {key : Option Buffer} {filename : CString} {sb : Stat}
  {data chunk out : Buffer} {s : ServerState} {t : List Event} {size total count fuel interval : Nat}

theorem transactionLength_block (h : crypto.encrypt key chunk = some out)
    (hl : chunk.length ≤ encryptBlockSize) :
    transactionLength out (some out.length) = some (out.length : Int) ∧
      lengthFits (some out.length) = true := by
  have ho := crypto.encrypt_length _ _ _ h
  have hs : encryptBlockSize = 4064 := rfl
  have hne : (out.length : Int) ≠ 0 := by omega
  have hle : (out.length : Int) ≤ (cfBufSize - cfInbandOffset : Nat) := by
    simp only [cfBufSize, cfInbandOffset]
    omega
  rw [transactionLength, Option.map_some, if_neg hne]
  exact ⟨rfl, decide_eq_true ⟨Int.natCast_nonneg _, hle⟩⟩

-- The events of the transfer.
def transferred (now : Surroundings) (crypto : Crypto) (secure : Bool) (replyfile : CString)
    (buf_size : Nat) (s : ServerState) : List Event :=
  (now.transfer crypto secure replyfile buf_size s []).2.2

end Surroundings

-- A peer on a connection that does not break down soon.
def publicState (uid : UInt32) : ServerState where
  conn  := { publicPeer ['h'] with uid := uid }
  sv    := ⟨[], [], [], [], [], [], [], []⟩
  inbox := []
  sends := 100

theorem Crypto.toNat_padding : ∀ pad ≤ 8, (Char.ofNat pad).toNat = pad := by decide

theorem Crypto.inverts_padding {key : Option Buffer} : Crypto.padding.Inverts key := by
  intro text
  refine ⟨_, rfl, ?_⟩
  have hpos : 8 - text.length % 8 ≠ 0 := by omega
  have hval := Crypto.toNat_padding (8 - text.length % 8) <| Nat.sub_le ..
  simp [padding, List.getLast?_append, List.getLast?_replicate, hpos, hval]

end CfEngine
