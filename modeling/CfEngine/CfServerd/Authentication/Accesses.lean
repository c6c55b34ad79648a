import CfEngine.CfServerd.Authentication
import CfEngine.Library.Traced

namespace CfEngine

open Traced

-- The buffers of the dialogue into which the client can send more or less than they hold.
inductive DialogueBuffer
  | sauth
  | recvbuffer
  | decrypted_nonce
  | out
  deriving DecidableEq

-- The bytes that are read or written from the start of the buffer, and those that it holds.
structure BufferAccess where
  buffer : DialogueBuffer
  bytes  : Nat
  size   : Nat
  deriving DecidableEq

def BufferAccess.InBounds (access : BufferAccess) : Prop :=
  access.bytes ≤ access.size

instance {access : BufferAccess} : Decidable access.InBounds :=
  inferInstanceAs <| Decidable (_ ≤ _)

abbrev AccessedServing : Type → Type := Traced (ServerState × List BufferAccess) Event

namespace ServerHost

def sauthSize : Nat := 10

-- The accesses to the challenge, which is decrypted or copied.
def Proposal.challengeReads (p : Proposal) (recvlen : Nat) : List BufferAccess :=
  if p.iscrypt = ['y'] then
    [⟨.recvbuffer, cfRsaProtoOffset + p.crypt_len, recvlen⟩]
  else if p.crypt_len < p.nonce_len then
    []
  else
    [⟨.recvbuffer, cfRsaProtoOffset + p.nonce_len, recvlen⟩]

variable (host : ServerHost) (now : Surroundings)

-- The accesses to the buffer in which the session key is decrypted. It has been allocated for what is
-- encrypted with the key of the client.
def sessionKeyWrites (key : RsaKey) (input : Buffer) : List BufferAccess :=
  if input.length = cfBlowfishSize then
    []
  else
    (host.crypto.privateDecrypt input).toList.map fun session_key =>
      ⟨.out, session_key.length, host.crypto.rsaSize key + 1⟩

namespace Accessed

-- The parts of the dialogue, with the accesses to its buffers.

def receiveSessionKey (key : RsaKey) (accepted : Option (CString × Bool)) (enterprise : Char)
    (out : Buffer) : AccessedServing Bool := do
  match ← unobserved Serving.receiveTransaction with
  | none       => return false
  | some input =>
    if cfBufSize / 2 < input.length then
      return false
    unobserved <| Serving.setConn fun conn =>
      { conn with session_key := some now.leftData, encryption_type := enterprise }
    observe <| host.sessionKeyWrites key input
    let key := if input.length = cfBlowfishSize then some input else
      (host.rsaPrivateDecrypt input).map (overwrite · out)
    match key with
    | none     => return false
    | some key =>
      let key := bytesFrom key cfBlowfishSize
      unobserved <| Serving.setConn fun conn => { conn with session_key := some key, rsa_auth := true }
      unobserved <| Traced.emit <| .authenticated accepted key
      return true

def challengeClient (p : Proposal) (pubkey key : RsaKey) (accepted : Option (CString × Bool)) :
    AccessedServing Bool := do
  let challenge := host.crypto.bn2mpi now.challenge
  match host.crypto.publicEncrypt key challenge with
  | none     => return false
  | some out =>
    observe [⟨.out, out.length, host.crypto.rsaSize key + 1⟩]
    let _ ← unobserved <| Serving.sendTransaction out (some (host.crypto.rsaSize key)) .done
    if p.iscrypt ≠ ['y'] then
      let n := host.crypto.bn2mpi pubkey.n
      let e := host.crypto.bn2mpi pubkey.e
      let _ ← unobserved <| Serving.sendTransaction n (some n.length) .done
      let _ ← unobserved <| Serving.sendTransaction e (some e.length) .done
    match ← unobserved Serving.receiveTransaction with
    | none       => return false
    | some input =>
      if ¬hashesMatch (host.crypto.hashString challenge) input then
        return false
      receiveSessionKey host now key accepted p.enterprise out

def authenticationDialogue (recvbuffer : Buffer) : AccessedServing Bool := do
  match host.pubkey with
  | none        => return false
  | some pubkey =>
    let p := scanProposal recvbuffer.toCString
    observe [⟨.sauth, p.sauth.length + 1, sauthSize⟩]
    if 10 ≤ p.sauth.length then
      Traced.stop
    if ¬p.isProper recvbuffer.length then
      return false
    observe <| p.challengeReads recvbuffer.length
    match host.decryptNonce now p recvbuffer with
    | none       => return false
    | some nonce =>
      observe [⟨.decrypted_nonce, p.nonce_len, p.crypt_len⟩]
      match ← unobserved host.receiveKey with
      | none     => return false
      | some key =>
        unobserved <| Serving.setConn fun conn => { conn with digest := host.crypto.hashPubKey key }
        let s ← unobserved Traced.get
        let known ← unobserved <| host.checkStoreKey now key
        let s' ← unobserved Traced.get
        if known = none ∧ ¬s'.conn.trust then
          return false
        let digest := host.crypto.hashString <| nonce.take p.nonce_len
        let _ ← unobserved <| Serving.sendTransaction digest (some cfMd5Len) .done
        challengeClient host now p pubkey key <| known.map fun known => (s.conn.username, known)

section
variable {host : ServerHost} {now : Surroundings} {p : Proposal} {pubkey key : RsaKey}
  {accepted : Option (CString × Bool)} {enterprise : Char} {out recvbuffer : Buffer}

theorem receiveSessionKey_observes : Observes (receiveSessionKey host now key accepted enterprise out)
    (host.receiveSessionKey now accepted enterprise out) := by
  apply observes_unobserved.bind
  intro input
  cases input
  case none       => exact observes_pure
  case some input =>
    apply Observes.ite observes_pure
    apply observes_unobserved.bind
    intro _
    apply Observes.observe_bind
    dsimp only
    cases if input.length = cfBlowfishSize then some input else
      (host.rsaPrivateDecrypt input).map (overwrite · out)
    case none     => exact observes_pure
    case some key =>
      apply observes_unobserved.bind
      intro _
      apply observes_unobserved.bind
      exact fun _ => observes_pure

theorem challengeClient_observes : Observes (challengeClient host now p pubkey key accepted)
    (host.challengeClient now p pubkey key accepted) := by
  have hreply {challenge out : Buffer} : Observes
      (show AccessedServing Bool from do
        match ← unobserved Serving.receiveTransaction with
        | none       => return false
        | some input =>
          if ¬hashesMatch (host.crypto.hashString challenge) input then
            return false
          receiveSessionKey host now key accepted p.enterprise out)
      (show Serving Bool from do
        match ← Serving.receiveTransaction with
        | none       => return false
        | some input =>
          if ¬hashesMatch (host.crypto.hashString challenge) input then
            return false
          host.receiveSessionKey now accepted p.enterprise out) := by
    apply observes_unobserved.bind
    intro input
    cases input
    case none       => exact observes_pure
    case some input => exact Observes.ite observes_pure receiveSessionKey_observes
  unfold challengeClient ServerHost.challengeClient
  dsimp only
  cases host.crypto.publicEncrypt key (host.crypto.bn2mpi now.challenge)
  case none     => exact observes_pure
  case some out =>
    apply Observes.observe_bind
    apply observes_unobserved.bind
    intro _
    apply Observes.ite
    · apply observes_unobserved.bind
      intro _
      apply observes_unobserved.bind
      exact fun _ => hreply
    · exact hreply

-- The accesses do not change what the dialogue does.
theorem authenticationDialogue_observes : Observes (authenticationDialogue host now recvbuffer)
    (host.authenticationDialogue now recvbuffer) := by
  unfold authenticationDialogue ServerHost.authenticationDialogue
  cases host.pubkey
  case none        => exact observes_pure
  case some pubkey =>
    apply Observes.observe_bind
    apply Observes.ite observes_stop
    apply Observes.ite observes_pure
    apply Observes.observe_bind
    cases host.decryptNonce now (scanProposal recvbuffer.toCString) recvbuffer
    case none       => exact observes_pure
    case some nonce =>
      apply Observes.observe_bind
      apply observes_unobserved.bind
      intro key
      cases key
      case none     => exact observes_pure
      case some key =>
        apply observes_unobserved.bind
        intro _
        apply observes_unobserved.bind
        intro s
        apply observes_unobserved.bind
        intro known
        apply observes_unobserved.bind
        intro s'
        apply Observes.ite observes_pure
        apply observes_unobserved.bind
        exact fun _ => challengeClient_observes

end
end Accessed
end ServerHost
end CfEngine
