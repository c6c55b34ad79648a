import CfEngine.CfServerd.Authentication.Accesses
import CfEngine.CfServerd.BusyWithConnection.Dialogue

namespace CfEngine

open Traced

-- The message that the server receives after `i` others.
def ServerState.message (s : ServerState) (i : Nat) : Option Buffer :=
  s.inbox[i]?.join.map Packet.data

namespace Serving

variable {s : ServerState} {t : List Event}

theorem finishes_sendTransaction {payload : Buffer} {n : Nat} {status : TransactionStatus}
    (h : FitsPacket <| transactionLength payload <| some (n : Int)) :
    Finishes (sendTransaction payload (some n) status) s t fun _ s' _ =>
      s' = { s with sends := s.sends - 1 } := by
  apply ensures_sendTransaction.mpr
  have hfits : lengthFits (transactionLength payload <| some (n : Int)) = true := by
    have ⟨k, hk, hle⟩ := h
    apply lengthFits_iff.mpr
    refine ⟨k, hk, ?_, hle⟩
    rw [← Option.some.inj hk]
    dsimp only
    split
    · exact Int.natCast_nonneg _
    · exact Int.natCast_nonneg _
  exact ⟨fun _ => ⟨_, rfl, rfl⟩, fun hn => absurd hfits hn⟩

theorem finishes_sendText {text : CString} (h : FitsText text) :
    Finishes (sendText text) s t fun _ s' _ => s' = { s with sends := s.sends - 1 } :=
  finishes_sendTransaction (n := 0) h.fitsPacket

theorem finishes_receiveTransaction : Finishes receiveTransaction s t fun r s' _ =>
    r = s.message 0 ∧ s' = { s with inbox := s.inbox.tail } := by
  cases hs : s.inbox <;>
    simp [Finishes, receiveTransaction, ServerState.message, hs]
  rw [← hs]

end Serving

namespace ServerHost

variable (host : ServerHost) (now : Surroundings)

-- The message is a number that belongs to a key.
def IsNumber (message : Option Buffer) (n : Nat) : Prop :=
  ∃ data, message = some data ∧ data ≠ [] ∧ host.crypto.mpi2bn data = some n

-- The key is known for the user, or the server trusts the client without that.
def AcceptsKey (s : ServerState) (key : RsaKey) : Prop :=
  now.havePublicKey s.conn.username (mapAddress s.conn.ipaddr) (host.crypto.hashPubKey key) = some key ∨
    host.Trusts s ∨ s.conn.trust = true

-- The client answers the counter challenge and then sends a session key.
structure Answers (s : ServerState) (key : RsaKey) (input : Buffer) : Prop where
  encrypted   : (host.crypto.publicEncrypt key <| host.crypto.bn2mpi now.challenge).isSome
  answer      : ∃ data, s.message 0 = some data ∧
    hashesMatch (host.crypto.hashString <| host.crypto.bn2mpi now.challenge) data = true
  session_key : s.message 1 = some input

-- The session key fits into the buffer that has been allocated for the key of the client, if it is
-- decrypted.
def SessionKeyFits (key : RsaKey) (input : Buffer) : Prop :=
  input.length ≤ cfBufSize / 2 → input.length ≠ cfBlowfishSize →
    ∀ session_key, host.crypto.privateDecrypt input = some session_key →
      session_key.length ≤ host.crypto.rsaSize key + 1

section
variable {host : ServerHost} {now : Surroundings} {s : ServerState} {t : List Event} {key : RsaKey}

theorem finishes_receiveNumber : Finishes host.receiveNumber s t fun r s' _ =>
    (∀ n, r = some n ↔ host.IsNumber (s.message 0) n) ∧ s' = { s with inbox := s.inbox.tail } := by
  apply Serving.finishes_receiveTransaction.bind
  intro data s' t ⟨hd, hs⟩
  rw [← hd]
  cases data
  case none      => exact finishes_pure ⟨fun _ => ⟨nofun, fun ⟨_, hn, _⟩ => nomatch hn⟩, hs⟩
  case some data =>
    apply finishes_pure
    refine ⟨fun n => ?_, hs⟩
    rw [Option.ite_none_left_eq_some]
    exact ⟨fun h => ⟨data, rfl, h⟩, fun ⟨_, hd, h⟩ => Option.some.inj hd ▸ h⟩

theorem finishes_receiveKey : Finishes host.receiveKey s t fun r s' _ =>
    (∀ key, r = some key ↔ host.IsNumber (s.message 0) key.n ∧ host.IsNumber (s.message 1) key.e) ∧
      (r ≠ none → s' = { s with inbox := s.inbox.drop 2 }) := by
  apply finishes_receiveNumber.bind
  intro n s₁ t₁ ⟨hn, hs₁⟩
  cases n
  case none   =>
    exact finishes_pure ⟨fun key => ⟨nofun, fun h => nomatch (hn key.n).mpr h.left⟩, (absurd rfl ·)⟩
  case some n =>
    apply finishes_receiveNumber.bind
    intro e s₂ t₂ ⟨he, hs₂⟩
    have hm : s₁.message 0 = s.message 1 := by
      rw [hs₁, ServerState.message, ServerState.message, List.getElem?_tail]
    rw [hm] at he
    apply finishes_pure
    constructor
    · intro key
      rw [← hn, ← he, Option.map_eq_some_iff]
      constructor
      · exact fun ⟨e, he, hk⟩ => hk ▸ ⟨rfl, he⟩
      · exact fun ⟨hn, he⟩ => ⟨key.e, he, by rw [Option.some.inj hn]⟩
    · intro _
      rw [hs₂, hs₁, ← List.drop_one, ← List.drop_one, List.drop_drop]

theorem finishes_acceptOnTrust : Finishes host.acceptOnTrust s t fun known s' _ =>
    s'.inbox = s.inbox ∧ (known = none ∧ ¬s'.conn.trust = true ↔ ¬(host.Trusts s ∨ s.conn.trust = true)) := by
  apply finishes_get_bind
  apply Finishes.ite
  · intro ht
    refine Finishes.bind (P := fun _ s' _ => s' = _) ⟨(), rfl, rfl⟩ fun _ s' t' hs' => ?_
    apply (Serving.finishes_sendText <| by decide).bind
    intro _ s'' t'' hs''
    apply finishes_pure
    rw [hs'', hs']
    exact ⟨rfl, nofun, fun h => absurd (.inl ht) h⟩
  · intro (ht : ¬host.Trusts s)
    apply (Serving.finishes_sendText <| by decide).bind
    intro _ s' t' hs'
    apply finishes_pure
    rw [hs']
    exact ⟨rfl, by rw [or_iff_right ht]; exact and_iff_right rfl⟩

theorem finishes_checkStoreKey (hd : s.conn.digest = host.crypto.hashPubKey key) :
    Finishes (host.checkStoreKey now key) s t fun known s' _ =>
      s'.inbox = s.inbox ∧ (known = none ∧ ¬s'.conn.trust = true ↔ ¬host.AcceptsKey now s key) := by
  have hrest {s₁ t₁} (hi : s₁.inbox = s.inbox) (hc : s₁.conn = s.conn)
      (hk : s₁.sv.trustkeylist = s.sv.trustkeylist) :
      Finishes (show Serving (Option Bool) from do
        if now.havePublicKey s.conn.username (mapAddress s.conn.ipaddr) s.conn.digest = some key then
          let _ ← Serving.sendText "OK: key accepted".toList
          return some true
        else
          host.acceptOnTrust) s₁ t₁ fun known s' _ =>
        s'.inbox = s.inbox ∧ (known = none ∧ ¬s'.conn.trust = true ↔ ¬host.AcceptsKey now s key) := by
    unfold AcceptsKey
    rw [← hd]
    apply Finishes.ite
    · intro hkey
      apply (Serving.finishes_sendText <| by decide).bind
      intro _ s' t' hs'
      apply finishes_pure
      rw [hs']
      exact ⟨hi, nofun, fun h => absurd (.inl hkey) h⟩
    · intro hkey
      apply finishes_acceptOnTrust.imp
      intro known s' _ ⟨hs', ht⟩
      rw [or_iff_right hkey, ht, Trusts, Trusts, hk, hc]
      exact ⟨hs'.trans hi, Iff.rfl⟩
  apply finishes_get_bind
  apply Finishes.ite
  · exact fun _ => Finishes.bind (P := fun _ s' _ => s' = _) ⟨(), rfl, rfl⟩ fun _ s' t' hs' => hs' ▸ hrest rfl rfl rfl
  · exact fun _ => hrest rfl rfl rfl

end
end ServerHost

def AllInBounds (accesses : List BufferAccess) : Prop :=
  ∀ access ∈ accesses, access.InBounds

theorem allInBounds_append {new accesses : List BufferAccess} :
    AllInBounds (new ++ accesses) ↔ AllInBounds new ∧ AllInBounds accesses :=
  List.forall_mem_append

theorem allInBounds_singleton {access : BufferAccess} : AllInBounds [access] ↔ access.InBounds :=
  List.forall_mem_singleton

namespace ServerHost.Accessed

variable {host : ServerHost} {now : Surroundings} {s : ServerState} {t : List Event} {key : RsaKey}
  {accesses : List BufferAccess} {accepted : Option (CString × Bool)}

theorem sessionKeyWrites_inBounds {input : Buffer} (hl : input.length ≤ cfBufSize / 2) :
    AllInBounds (host.sessionKeyWrites key input) ↔ host.SessionKeyFits key input := by
  unfold sessionKeyWrites SessionKeyFits
  split
  case isTrue h  => exact ⟨fun _ _ hn => absurd h hn, fun _ => List.forall_mem_nil _⟩
  case isFalse h =>
    cases host.crypto.privateDecrypt input
    case none             => exact ⟨fun _ _ _ _ => nofun, fun _ => List.forall_mem_nil _⟩
    case some session_key =>
      apply allInBounds_singleton.trans
      exact ⟨fun hb _ _ _ hk => Option.some.inj hk ▸ hb, fun hb => hb hl h session_key rfl⟩

theorem receiveSessionKey_inBounds {enterprise : Char} {out : Buffer} :
    (receiveSessionKey host now key accepted enterprise out).Ensures (s, accesses) t fun _ c _ =>
      (AllInBounds c.2 ↔ AllInBounds accesses ∧
        ∀ input, s.message 0 = some input → host.SessionKeyFits key input) := by
  apply Serving.finishes_receiveTransaction.observed
  intro input s' t' ⟨hm, _⟩
  rw [← hm]
  cases input
  case none       => exact (and_iff_left nofun).symm
  case some input =>
    have hfits : (∀ input', some input = some input' → host.SessionKeyFits key input') ↔
        host.SessionKeyFits key input :=
      ⟨fun h => h input rfl, fun h _ hi => Option.some.inj hi ▸ h⟩
    rw [hfits]
    apply ensures_ite.mpr
    constructor
    · intro hl
      exact (and_iff_left fun hl' => absurd hl <| Nat.not_lt.mpr hl').symm
    · intro hl
      rw [← sessionKeyWrites_inBounds <| Nat.not_lt.mp hl, and_comm, ← allInBounds_append]
      dsimp only
      rw [ensures_bind, ensures_unobserved, Serving.setConn, ensures_modify, then_some, ensures_bind,
        ensures_observe, then_some]
      cases if input.length = cfBlowfishSize then some input else
        (host.rsaPrivateDecrypt input).map (overwrite · out)
      case none   => exact Iff.rfl
      case some _ => exact Iff.rfl

theorem challengeClient_inBounds {p : Proposal} {pubkey : RsaKey} (hp : pubkey ∈ host.pubkey)
    (hk : host.crypto.rsaSize key ≤ cfBufSize - cfInbandOffset) :
    (challengeClient host now p pubkey key accepted).Ensures (s, accesses) t fun _ c _ =>
      (AllInBounds c.2 ↔ AllInBounds accesses ∧
        ∀ input, host.Answers now s key input → host.SessionKeyFits key input) := by
  unfold challengeClient
  dsimp only
  cases hout : host.crypto.publicEncrypt key (host.crypto.bn2mpi now.challenge)
  case none     =>
    have hn {input : Buffer} : ¬host.Answers now s key input :=
      fun h => by simpa [hout] using h.encrypted
    exact (and_iff_left fun _ h => absurd h hn).symm
  case some out =>
    have hlen := host.crypto.publicEncrypt_length _ _ _ hout
    have hreply {s' t'} (hi : s'.inbox = s.inbox) {accesses} {next : Option Buffer → AccessedServing Bool}
        (hnone : next none = pure false)
        (hsome : ∀ input, next (some input) =
          if ¬hashesMatch (host.crypto.hashString <| host.crypto.bn2mpi now.challenge) input then pure false
          else receiveSessionKey host now key accepted p.enterprise out) :
        (unobserved Serving.receiveTransaction >>= next).Ensures (s', accesses) t' fun _ c _ =>
          (AllInBounds c.2 ↔ AllInBounds accesses ∧
            ∀ input, host.Answers now s key input → host.SessionKeyFits key input) := by
      have hm (i : Nat) : s'.message i = s.message i := by
        rw [ServerState.message, ServerState.message, hi]
      apply Serving.finishes_receiveTransaction.observed
      rintro answer s₁ t₁ ⟨ha, hs₁⟩
      rw [hm] at ha
      cases answer
      case none        =>
        have hn {input : Buffer} : ¬host.Answers now s key input := by
          intro h
          obtain ⟨_, h, _⟩ := h.answer
          cases ha.trans h
        rw [hnone]
        exact (and_iff_left fun _ h => absurd h hn).symm
      case some answer =>
        rw [hsome]
        apply ensures_ite.mpr
        constructor
        · intro hhash
          have hn {input : Buffer} : ¬host.Answers now s key input := by
            intro h
            obtain ⟨_, h, hh⟩ := h.answer
            cases ha.trans h
            exact hhash hh
          exact (and_iff_left fun _ h => absurd h hn).symm
        · intro hhash
          have hm₁ : s₁.message 0 = s.message 1 := by
            rw [hs₁, ServerState.message, List.getElem?_tail, ← hm 1]
            rfl
          have hans (input : Buffer) : host.Answers now s key input ↔ s.message 1 = some input :=
            ⟨fun h => h.session_key,
              fun h => ⟨by rw [hout]; rfl, ⟨answer, ha.symm, not_not.mp hhash⟩, h⟩⟩
          simp only [hans]
          rw [← hm₁]
          exact receiveSessionKey_inBounds
    have hwrite : AllInBounds ([⟨.out, out.length, host.crypto.rsaSize key + 1⟩] ++ accesses) ↔
        AllInBounds accesses := by
      rw [allInBounds_append, allInBounds_singleton]
      exact and_iff_right <| hlen.trans_le <| Nat.le_succ _
    have hnumber {n : Nat} (hn : n < 256 ^ 256) : FitsPacket (transactionLength (host.crypto.bn2mpi n)
        (some ((host.crypto.bn2mpi n).length : Int))) :=
      fitsPacket_of_length <| (host.crypto.bn2mpi_length n 256 hn).trans (by decide)
    obtain ⟨hn, he⟩ := host.pubkey_lt pubkey hp
    have hsize : FitsText out := fitsText_of_length <| hlen.trans_le hk
    rw [ensures_bind, ensures_observe, then_some, ← hwrite]
    apply (Serving.finishes_sendTransaction <| fitsPacket_of_le hsize <| Int.ofNat_le.mpr hk).observed
    intro _ s₁ t₁ hs₁
    apply ensures_ite.mpr
    constructor
    · intro _
      apply (Serving.finishes_sendTransaction <| hnumber hn).observed
      intro _ s₂ t₂ hs₂
      apply (Serving.finishes_sendTransaction <| hnumber he).observed
      intro _ s₃ t₃ hs₃
      exact hreply (by rw [hs₃, hs₂, hs₁]) rfl fun _ => rfl
    · exact fun _ => hreply (by rw [hs₁]) rfl fun _ => rfl

end ServerHost.Accessed

theorem ServerState.message_length {s : ServerState} {i : Nat} {data : Buffer} (h : s.message i = some data) :
    data.length ≤ cfBufSize - cfInbandOffset := by
  have ⟨packet, _, hd⟩ := Option.map_eq_some_iff.mp h
  exact hd ▸ packet.length_le

namespace ServerHost

theorem Answers.congr {host : ServerHost} {now : Surroundings} {s s' : ServerState} {key : RsaKey}
    {input : Buffer} (h : host.Answers now s key input) (hs : s.inbox = s'.inbox) :
    host.Answers now s' key input := by
  have hm (i : Nat) : s'.message i = s.message i := by
    rw [ServerState.message, ServerState.message, hs]
  constructor
  case encrypted   => exact h.encrypted
  case answer      => exact hm 0 ▸ h.answer
  case session_key => exact hm 1 ▸ h.session_key

theorem IsNumber.rsaSize_le {host : ServerHost} {s : ServerState} {i : Nat} {key : RsaKey}
    (h : host.IsNumber (s.message i) key.n) : host.crypto.rsaSize key ≤ cfBufSize - cfInbandOffset :=
  have ⟨data, hd, _, hn⟩ := h
  (host.crypto.rsaSize_le data key.n key.e hn).trans <| ServerState.message_length hd

-- The client sends a key that is accepted, and in the end a session key.
structure SendsSessionKey (host : ServerHost) (now : Surroundings) (s : ServerState) (key : RsaKey)
    (input : Buffer) : Prop where
  modulus  : host.IsNumber (s.message 0) key.n
  exponent : host.IsNumber (s.message 1) key.e
  accepted : host.AcceptsKey now s key
  answers  : host.Answers now { s with inbox := s.inbox.drop 2 } key input

-- The first message of a client, and those that follow it, keep to the sizes of the buffers.
structure DialogueFits (host : ServerHost) (now : Surroundings) (s : ServerState) (recvbuffer : Buffer)
    (p : Proposal) : Prop where
  word      : p.sauth.length < sauthSize
  challenge : p.isProper recvbuffer.length → p.iscrypt = ['y'] →
    cfRsaProtoOffset + p.crypt_len ≤ recvbuffer.length
  nonce     : p.isProper recvbuffer.length → p.iscrypt = ['y'] → host.decryptNonce now p recvbuffer ≠ none →
    p.nonce_len ≤ p.crypt_len
  session   : p.isProper recvbuffer.length → host.decryptNonce now p recvbuffer ≠ none →
    ∀ key input, host.SendsSessionKey now s key input → host.SessionKeyFits key input

namespace Accessed

variable {host : ServerHost} {now : Surroundings} {s : ServerState} {t : List Event}
  {accesses : List BufferAccess}

theorem challengeReads_inBounds {p : Proposal} {recvlen : Nat} (hp : p.isProper recvlen) :
    AllInBounds (p.challengeReads recvlen) ↔
      (p.iscrypt = ['y'] → cfRsaProtoOffset + p.crypt_len ≤ recvlen) := by
  unfold Proposal.challengeReads
  split
  case isTrue hy  => exact allInBounds_singleton.trans ⟨fun h _ => h, fun h => h hy⟩
  case isFalse hy =>
    apply iff_of_true _ (absurd · hy)
    split
    · exact List.forall_mem_nil _
    · apply allInBounds_singleton.mpr
      have h := of_decide_eq_true hp
      exact h.2.2.2.2.1

-- A challenge that is not encrypted is copied if the space that is allocated for it suffices.
theorem plain_nonce_le {p : Proposal} {recvbuffer : Buffer} (hy : p.iscrypt ≠ ['y'])
    (h : host.decryptNonce now p recvbuffer ≠ none) : p.nonce_len ≤ p.crypt_len := by
  rw [decryptNonce, if_neg hy] at h
  by_contra hn
  exact h <| if_pos <| Nat.not_le.mp hn

-- What follows the challenge.
theorem receiveKey_inBounds {p : Proposal} {pubkey : RsaKey} {nonce : Buffer} (hp : pubkey ∈ host.pubkey) :
    (show AccessedServing Bool from do
      match ← unobserved host.receiveKey with
      | none     => return false
      | some key =>
        unobserved <| Serving.setConn fun conn => { conn with digest := host.crypto.hashPubKey key }
        let s ← unobserved Traced.get
        let known ← unobserved <| host.checkStoreKey now key
        let s' ← unobserved Traced.get
        if known = none ∧ ¬s'.conn.trust then
          return false
        let digest := host.crypto.hashString <| nonce.take p.nonce_len
        let _ ← unobserved <| Serving.sendTransaction digest (some cfMd5Len) .done
        challengeClient host now p pubkey key <|
          known.map fun known => (s.conn.username, known)).Ensures (s, accesses) t fun _ c _ =>
      (AllInBounds c.2 ↔ AllInBounds accesses ∧
        ∀ key input, host.SendsSessionKey now s key input → host.SessionKeyFits key input) := by
  apply finishes_receiveKey.observed
  rintro r s₁ t₁ ⟨hr, hs₁⟩
  cases r
  case none     =>
    have hn {key input} : ¬host.SendsSessionKey now s key input :=
      fun h => nomatch (hr key).mpr ⟨h.modulus, h.exponent⟩
    exact (and_iff_left fun _ _ h => absurd h hn).symm
  case some key =>
    obtain ⟨hmodulus, hexponent⟩ := (hr key).mp rfl
    have hkey {key' input} (h : host.SendsSessionKey now s key' input) : key = key' :=
      Option.some.inj <| (hr key').mpr ⟨h.modulus, h.exponent⟩
    have hs₁ := hs₁ nofun
    rw [ensures_bind, ensures_unobserved, Serving.setConn, ensures_modify, then_some, ensures_bind,
      ensures_unobserved, ensures_get, then_some]
    apply (finishes_checkStoreKey rfl).observed
    rintro known s₂ t₂ ⟨hs₂, hk⟩
    rw [ensures_bind, ensures_unobserved, ensures_get, then_some]
    apply ensures_ite.mpr
    constructor
    · intro h
      have hn {key' input} : ¬host.SendsSessionKey now s key' input := by
        intro hsends
        cases hkey hsends
        have ha := hsends.accepted
        apply hk.mp h
        rw [hs₁]
        exact ha
      exact (and_iff_left fun _ _ h => absurd h hn).symm
    · intro h
      have ha : host.AcceptsKey now s key := by
        have ha := not_not.mp <| mt hk.mpr h
        rwa [hs₁] at ha
      apply (Serving.finishes_sendTransaction ⟨cfMd5Len, rfl, by decide⟩).observed
      intro _ s₃ t₃ hs₃
      have hinbox : s₃.inbox = s.inbox.drop 2 := by
        rw [hs₃, hs₂, hs₁]
      have hsends (input : Buffer) : host.SendsSessionKey now s key input ↔ host.Answers now s₃ key input :=
        ⟨fun h => h.answers.congr hinbox.symm, fun h => ⟨hmodulus, hexponent, ha, h.congr hinbox⟩⟩
      have hall : (∀ key input, host.SendsSessionKey now s key input → host.SessionKeyFits key input) ↔
          ∀ input, host.Answers now s₃ key input → host.SessionKeyFits key input :=
        ⟨fun h input ha => h key input <| (hsends input).mpr ha,
          fun h key' input hk' => by cases hkey hk'; exact h input <| (hsends input).mp hk'⟩
      rw [hall]
      exact challengeClient_inBounds hp hmodulus.rsaSize_le

theorem authenticationDialogue_ensures {recvbuffer : Buffer} :
    (authenticationDialogue host now recvbuffer).Ensures (s, []) t fun _ c _ =>
      (AllInBounds c.2 ↔ (host.pubkey.isSome →
        host.DialogueFits now s recvbuffer (scanProposal recvbuffer.toCString))) := by
  unfold authenticationDialogue
  cases hpub : host.pubkey
  case none        => exact iff_of_true (List.forall_mem_nil _) nofun
  case some pubkey =>
    dsimp only
    rw [Option.isSome_some, forall_prop_of_true rfl]
    generalize scanProposal recvbuffer.toCString = p
    rw [ensures_bind, ensures_observe, then_some]
    apply ensures_ite.mpr
    constructor
    · intro hw
      apply iff_of_false
      · exact fun h => absurd (allInBounds_singleton.mp h) <| Nat.not_le.mpr <| Nat.lt_succ_of_le hw
      · exact fun h => absurd h.word <| Nat.not_lt.mpr hw
    · intro hw
      have hword : AllInBounds ([⟨.sauth, p.sauth.length + 1, sauthSize⟩] ++ []) :=
        allInBounds_singleton.mpr <| Nat.not_le.mp hw
      apply ensures_ite.mpr
      constructor
      · intro hn
        apply iff_of_true hword
        exact ⟨Nat.not_le.mp hw, (absurd · hn), (absurd · hn), (absurd · hn)⟩
      · intro hproper
        have hproper := not_not.mp hproper
        rw [ensures_bind, ensures_observe, then_some]
        cases hnonce : host.decryptNonce now p recvbuffer
        case none       =>
          apply (allInBounds_append.trans <| and_iff_left hword).trans
          apply (challengeReads_inBounds hproper).trans
          constructor
          · exact fun h =>
              ⟨Nat.not_le.mp hw, fun _ => h, fun _ _ hd => absurd hnonce hd, fun _ hd => absurd hnonce hd⟩
          · exact fun h => h.challenge hproper
        case some nonce =>
          rw [ensures_bind, ensures_observe, then_some]
          apply (receiveKey_inBounds <| Option.mem_def.mpr hpub).imp
          intro _ c _ hc
          have hsome : host.decryptNonce now p recvbuffer ≠ none := hnonce ▸ nofun
          rw [hc, allInBounds_append, allInBounds_append, and_iff_left hword, allInBounds_singleton,
            challengeReads_inBounds hproper]
          constructor
          · intro ⟨⟨hhash, hread⟩, hsession⟩
            exact ⟨Nat.not_le.mp hw, fun _ => hread, fun _ _ _ => hhash, fun _ _ => hsession⟩
          · intro h
            refine ⟨⟨?_, h.challenge hproper⟩, h.session hproper hsome⟩
            by_cases hy : p.iscrypt = ['y']
            case pos => exact h.nonce hproper hy hsome
            case neg => exact plain_nonce_le hy hsome

-- Whatever the client sends, each access of the dialogue stays inside its buffer if and only if the
-- server has no key, or the first message and those after it keep to the sizes of the buffers.
theorem authenticationDialogue_inBounds_iff (host : ServerHost) (now : Surroundings) (s : ServerState)
    (t : List Event) (recvbuffer : Buffer) :
    AllInBounds (observations (authenticationDialogue host now recvbuffer) s t) ↔
      (host.pubkey.isSome → host.DialogueFits now s recvbuffer (scanProposal recvbuffer.toCString)) :=
  authenticationDialogue_ensures

-- A server with a key, for examples.
def keyedHost : ServerHost where
  __        := publicHost
  pubkey    := some ⟨15, 3⟩
  pubkey_lt := by
    intro key hk
    cases Option.some.inj hk
    decide

-- A command that starts with the right letters, but goes on.
theorem not_authenticationDialogue_inBounds : ¬∀ (host : ServerHost) (now : Surroundings) (s : ServerState)
    (t : List Event) (recvbuffer : Buffer),
    AllInBounds (observations (authenticationDialogue host now recvbuffer) s t) := by
  intro h
  have hfits := authenticationDialogue_ensures.mp <|
    h keyedHost .calm ⟨publicPeer [], closedAccess, [], 0⟩ [] "SAUTHENTICATE n 16 16 c".toList
  exact absurd (hfits rfl).word <| by decide

end Accessed
end ServerHost
end CfEngine
