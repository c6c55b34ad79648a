import CfEngine.Libcfnet.ClientCode

namespace CfEngine

-- The agent in the dialogue. The server's key is the one that is known for its address. The challenge and the key for
-- the session are random numbers, and `left` is what is left in the memory for the counter challenge.
structure Agent where
  privateDecrypt : Buffer → Option Buffer
  pubkey         : Option RsaKey
  server_pubkey  : Option RsaKey
  trust_key      : Bool
  nonce          : Nat
  session_key    : Buffer
  left           : Buffer

-- The events are the messages that are sent. The messages that will come are the state.
abbrev Speaking : Type → Type := Traced (List Buffer) Buffer

namespace Speaking

def sendTransaction (payload : Buffer) (len : Nat) : Speaking Unit :=
  Traced.emit <| payload.take len

def receiveTransaction : Speaking (Option Buffer) := do
  match ← Traced.get with
  | []            => return none
  | data :: inbox =>
    Traced.modify fun _ => inbox
    return some data

end Speaking

namespace Agent

variable (crypto : Crypto) (agent : Agent)

-- The opening of the dialogue, with the lengths of the challenge when it is encrypted and when it is not.
def sauthText (encrypted_len nonce_len : Nat) : CString :=
  "SAUTH ".toList ++ (if agent.server_pubkey = none then 'n' else 'y') :: ' ' :: (Nat.toDigits 10 encrypted_len ++
    ' ' :: (Nat.toDigits 10 nonce_len ++ " c".toList))

-- The challenge to the server, which is encrypted if its key is known.
def challengeText (nonce : Buffer) : Option Buffer :=
  match agent.server_pubkey with
  | none     => some nonce
  | some key => crypto.publicEncrypt key nonce

def openingPacket (out : Buffer) (nonce_len : Nat) : Buffer :=
  bytesFrom (agent.sauthText out.length nonce_len ++ ['\x00']) cfRsaProtoOffset ++ out

def receiveNumber : Speaking (Option Nat) := do
  match ← Speaking.receiveTransaction with
  | none    => return none
  | some [] => return none
  | some data => return crypto.mpi2bn data

-- If the key of the server is not known, it is sent.
def collectKey : Speaking (Option RsaKey) := do
  match agent.server_pubkey with
  | some key => return some key
  | none     =>
    match ← receiveNumber crypto with
    | none   => return none
    | some n => return (← receiveNumber crypto).map (RsaKey.mk n)

def sendSessionKey (server_pubkey : RsaKey) : Speaking Bool := do
  match crypto.publicEncrypt server_pubkey agent.session_key with
  | none     => return false
  | some out =>
    Speaking.sendTransaction out (crypto.rsaSize server_pubkey)
    return true

-- The answer to the counter challenge has the length of the agent's own challenge.
def answerChallenge (nonce_len : Nat) : Speaking Bool := do
  match ← Speaking.receiveTransaction with
  | none       => return false
  | some input =>
    if input = [] then
      return false
    match agent.privateDecrypt input with
    | none                  => return false
    | some decrypted_cchall =>
      if decrypted_cchall = [] then
        return false
      Speaking.sendTransaction (crypto.hashString <| (overwrite decrypted_cchall agent.left).take nonce_len) cfMd5Len
      match ← agent.collectKey crypto with
      | none               => return false
      | some server_pubkey => agent.sendSessionKey crypto server_pubkey

-- The server has accepted the key of the agent, and has answered the challenge.
def checkServer (digest : Buffer) : Speaking Bool := do
  match ← Speaking.receiveTransaction with
  | none       => return false
  | some input =>
    if badProtoReply input then
      return false
    match ← Speaking.receiveTransaction with
    | none       => return false
    | some input =>
      if ¬hashesMatch digest input then
        return false
      return agent.server_pubkey.isSome ∨ agent.trust_key

def authenticateAgent : Speaking Bool := do
  match agent.pubkey with
  | none        => return false
  | some pubkey =>
    let nonce := crypto.bn2mpi agent.nonce
    match agent.challengeText crypto nonce with
    | none     => return false
    | some out =>
      Speaking.sendTransaction (agent.openingPacket out nonce.length) (cfRsaProtoOffset + out.length)
      Speaking.sendTransaction (crypto.bn2mpi pubkey.n) (crypto.bn2mpi pubkey.n).length
      Speaking.sendTransaction (crypto.bn2mpi pubkey.e) (crypto.bn2mpi pubkey.e).length
      if ← agent.checkServer <| crypto.hashString nonce then
        agent.answerChallenge crypto nonce.length
      else
        return false

end Agent
end CfEngine
