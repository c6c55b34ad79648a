import CfEngine.CfServerd.Connection

namespace CfEngine

-- An empty item is not found.
def idempPrependItem (list : List CString) (item : CString) : List CString :=
  if item ≠ [] ∧ item ∈ list then list else item :: list

theorem mem_idempPrependItem {list : List CString} {item name : CString} (h : name ∈ list) :
    name ∈ idempPrependItem list item := by
  unfold idempPrependItem
  split
  case isTrue  => exact h
  case isFalse => exact List.mem_cons_of_mem _ h

def ServerAccess.allowedUser (sv : ServerAccess) (user : CString) : Bool :=
  isItemIn sv.allowuserlist user

namespace Serving

def setConn (f : ServerConnectionState → ServerConnectionState) : Serving Unit :=
  Traced.modify fun s => { s with conn := f s.conn }

end Serving

namespace ServerHost

variable (host : ServerHost) (now : Surroundings)

-- The user id `-2` stands for a user who is not known.
def uidOf (username : CString) : UInt32 :=
  (now.getpwnam username).getD (0 - 2)

-- The address, the name of the host and that of the user.
def scanIdentity (buf : CString) : CString × CString × CString :=
  let values := sscanf buf [.word 255, .blanks, .word 255, .blanks, .word 255]
  ((assignedText values 0).getD [], ((assignedText values 1).getD []).map Char.toLower,
    (assignedText values 2).getD [])

theorem scanIdentity_lt (buf : CString) : (scanIdentity buf).2.1.length < cfMaxVarSize := by
  unfold scanIdentity
  rw [List.length_map]
  exact (assignedText_width 255 (by decide)).trans_lt (by decide)

def verifyConnection (buf : CString) : Serving Bool := do
  let ip_assert := (scanIdentity buf).1
  let dns_assert := (scanIdentity buf).2.1
  let username := (scanIdentity buf).2.2
  let s ← Traced.get
  let address := mapAddress s.conn.ipaddr
  if ¬s.conn.trust ∨ host.exempt s then
    Serving.setConn fun conn =>
      { conn with
        hostname := dns_assert, username := username, uid := uidOf now username,
        hostname_lt := scanIdentity_lt buf }
    Traced.emit <| .identified dns_assert username s.conn.trust false
    return true
  if ip_assert ≠ address then
    return false
  if dns_assert = [] then
    return false
  if dns_assert = "skipident".toList then
    return false
  Serving.setConn fun conn => { conn with uid := uidOf now username }
  if address ∉ now.getaddrinfo dns_assert then
    return false
  Serving.setConn fun conn =>
    { conn with hostname := dns_assert, username := username, hostname_lt := scanIdentity_lt buf }
  Traced.emit <| .identified dns_assert username s.conn.trust true
  return true

-- The end of `CheckStoreKey`, for a key that is not known.
def acceptOnTrust : Serving (Option Bool) := do
  let s ← Traced.get
  if s.sv.trustkeylist ≠ [] ∧
      host.matchers.isMatchItemIn s.sv.trustkeylist (mapAddress s.conn.ipaddr) then
    Serving.setConn fun conn => { conn with trust := true }
    let _ ← Serving.sendText "OK: unknown key was accepted on trust".toList
    return some false
  else
    let _ ← Serving.sendText "BAD: key could not be accepted on trust".toList
    return none

-- If the key is accepted, whether it was known.
def checkStoreKey (key : RsaKey) : Serving (Option Bool) := do
  let s ← Traced.get
  let address := mapAddress s.conn.ipaddr
  let savedkey := now.havePublicKey s.conn.username address s.conn.digest
  if savedkey.isSome then
    Traced.modify fun s =>
      { s with sv := { s.sv with skipverify := idempPrependItem s.sv.skipverify address } }
  if savedkey = some key then
    let _ ← Serving.sendText "OK: key accepted".toList
    return some true
  else
    host.acceptOnTrust

-- What the client proposes in its first message.
structure Proposal where
  sauth      : CString
  iscrypt    : CString
  crypt_len  : Nat
  nonce_len  : Nat
  enterprise : Char

def scanProposal (recvbuffer : CString) : Proposal :=
  let values := sscanf recvbuffer [.word cfBufSize, .blanks, .char, .blanks, .unsigned, .blanks, .unsigned,
    .blanks, .char]
  { sauth      := (assignedText values 0).getD []
    iscrypt    := (assignedText values 1).getD ['n']
    crypt_len  := (assignedNumber values 2).getD 0 |>.toNat
    nonce_len  := (assignedNumber values 3).getD 0 |>.toNat
    enterprise := (assignedText values 4).bind List.head? |>.getD 'c' }

def Proposal.isProper (p : Proposal) (recvlen : Nat) : Bool :=
  0 < p.crypt_len ∧ 0 < p.nonce_len ∧ p.nonce_len ≤ 2 * cfNonceLen ∧ p.crypt_len ≤ 2 * cfNonceLen ∧
    cfRsaProtoOffset + p.nonce_len ≤ recvlen ∧ p.sauth = "SAUTH".toList

-- An error is reported where nothing is decrypted.
def rsaPrivateDecrypt (input : Buffer) : Option Buffer :=
  (host.crypto.privateDecrypt input).filter (· ≠ [])

theorem rsaPrivateDecrypt_eq {host : ServerHost} {input text : Buffer}
    (h : host.crypto.privateDecrypt input = some text) (hn : text ≠ []) :
    host.rsaPrivateDecrypt input = some text := by
  simp [rsaPrivateDecrypt, h, hn]

-- The challenge of the client.
def decryptNonce (p : Proposal) (recvbuffer : Buffer) : Option Buffer :=
  if p.iscrypt = ['y'] then
    (host.rsaPrivateDecrypt <| bytesFrom (recvbuffer.drop cfRsaProtoOffset) p.crypt_len).map
      (overwrite · now.leftData)
  else if p.crypt_len < p.nonce_len then
    none
  else
    some <| bytesFrom (recvbuffer.drop cfRsaProtoOffset) p.nonce_len

-- A part of the key of the client.
def receiveNumber : Serving (Option Nat) := do
  match ← Serving.receiveTransaction with
  | none      => return none
  | some data => return if data = [] then none else host.crypto.mpi2bn data

def receiveKey : Serving (Option RsaKey) := do
  match ← host.receiveNumber with
  | none   => return none
  | some n => return (← host.receiveNumber).map (RsaKey.mk n)

-- The end of the dialogue, in which the client sends the session key. Its buffer is allocated before the
-- key is decrypted.
def receiveSessionKey (accepted : Option (CString × Bool)) (enterprise : Char) (out : Buffer) :
    Serving Bool := do
  match ← Serving.receiveTransaction with
  | none       => return false
  | some input =>
    if cfBufSize / 2 < input.length then
      return false
    Serving.setConn fun conn =>
      { conn with session_key := some now.leftData, encryption_type := enterprise }
    let key := if input.length = cfBlowfishSize then some input else
      (host.rsaPrivateDecrypt input).map (overwrite · out)
    match key with
    | none     => return false
    | some key =>
      let key := bytesFrom key cfBlowfishSize
      Serving.setConn fun conn => { conn with session_key := some key, rsa_auth := true }
      Traced.emit <| .authenticated accepted key
      return true

-- The counter challenge, which the client has to answer.
def challengeClient (p : Proposal) (pubkey key : RsaKey) (accepted : Option (CString × Bool)) :
    Serving Bool := do
  let challenge := host.crypto.bn2mpi now.challenge
  match host.crypto.publicEncrypt key challenge with
  | none     => return false
  | some out =>
    let _ ← Serving.sendTransaction out (some (host.crypto.rsaSize key)) .done
    if p.iscrypt ≠ ['y'] then
      let n := host.crypto.bn2mpi pubkey.n
      let e := host.crypto.bn2mpi pubkey.e
      let _ ← Serving.sendTransaction n (some n.length) .done
      let _ ← Serving.sendTransaction e (some e.length) .done
    match ← Serving.receiveTransaction with
    | none       => return false
    | some input =>
      if ¬hashesMatch (host.crypto.hashString challenge) input then
        return false
      receiveSessionKey host now accepted p.enterprise out

-- A word that is longer than its buffer is undefined behaviour.
def authenticationDialogue (recvbuffer : Buffer) : Serving Bool := do
  match host.pubkey with
  | none        => return false
  | some pubkey =>
    let p := scanProposal recvbuffer.toCString
    if 10 ≤ p.sauth.length then
      Traced.stop
    if ¬p.isProper recvbuffer.length then
      return false
    match host.decryptNonce now p recvbuffer with
    | none       => return false
    | some nonce =>
      match ← host.receiveKey with
      | none     => return false
      | some key =>
        Serving.setConn fun conn => { conn with digest := host.crypto.hashPubKey key }
        let s ← Traced.get
        let known ← host.checkStoreKey now key
        let s' ← Traced.get
        if known = none ∧ ¬s'.conn.trust then
          return false
        let digest := host.crypto.hashString <| nonce.take p.nonce_len
        let _ ← Serving.sendTransaction digest (some cfMd5Len) .done
        host.challengeClient now p pubkey key <| known.map fun known => (s.conn.username, known)

end ServerHost
end CfEngine
