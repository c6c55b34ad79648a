import CfEngine.CfServerd.AccessControl
import CfEngine.Libcfnet.Net
import CfEngine.Library.Traced

namespace CfEngine

-- What a client has sent in one transaction.
structure Packet where
  data      : Buffer
  length_le : data.length ≤ cfBufSize - cfInbandOffset

structure RsaKey where
  n : Nat
  e : Nat
  deriving DecidableEq

-- The parts of the library for cryptography that the server uses. The cipher is the one that
-- `CfengineCipher` chooses, and pads its text to the next multiple of the block size 8. It writes what it
-- can decrypt, and the value of a function is missing where the library reports an error.
structure Crypto where
  encrypt        : Option Buffer → Buffer → Option Buffer
  decrypt        : Option Buffer → Buffer → Buffer
  privateDecrypt : Buffer → Option Buffer
  publicEncrypt  : RsaKey → Buffer → Option Buffer
  mpi2bn         : Buffer → Option Nat
  bn2mpi         : Nat → Buffer
  rsaSize        : RsaKey → Nat
  hashString     : Buffer → Buffer
  hashPubKey     : RsaKey → Buffer
  encrypt_length : ∀ key text out, encrypt key text = some out →
    out.length = (text.length / 8 + 1) * 8
  decrypt_length : ∀ key text, (decrypt key text).length ≤ text.length
  rsaSize_le     : ∀ data n e, mpi2bn data = some n → rsaSize ⟨n, e⟩ ≤ data.length
  bn2mpi_length  : ∀ n k, n < 256 ^ k → (bn2mpi n).length ≤ k + 5
  publicEncrypt_length : ∀ key data out, publicEncrypt key data = some out → out.length = rsaSize key

-- What does not change while the server runs. The revision of the sources is a part of the version. The
-- server may have a key, of 2048 bits.
structure ServerHost where
  matchers        : Matchers
  crypto          : Crypto
  pubkey          : Option RsaKey
  revision        : CString
  cfruncommand    : CString
  vfqname         : CString
  denybadclocks   : Bool
  clockDrift      : Int
  revision_le     : revision.length ≤ 40
  vfqname_lt      : vfqname.length < cfMaxVarSize
  cfruncommand_lt : cfruncommand.length < cfBufSize
  pubkey_lt       : ∀ key ∈ pubkey, key.n < 256 ^ 256 ∧ key.e < 256 ^ 256

-- What the server finds while it works on a request. A file may have changed when its size is looked up
-- again. The texts and the data that are left in memory are what is found in variables that have not been
-- set.
structure Surroundings where
  fs            : FileSystem
  restat        : CString → Nat → Option Stat
  time          : Option Int64
  getaddrinfo   : CString → List CString
  getpwnam      : CString → Option UInt32
  havePublicKey : CString → CString → Buffer → Option RsaKey
  challenge     : Nat
  states        : List (CString × Int)
  popen         : CString → Option Buffer
  terminating   : Bool
  leftText      : CString
  leftStat      : Stat
  leftData      : Buffer

-- The functions that decide about the access to something.
inductive AccessDecision
  | accessControl (req_path : CString)
  | literalAccessControl
  | contextAccessControl
  | authorizeRoles (args : CString)
  deriving DecidableEq

inductive FileUse
  | content
  | attributes
  | listing
  | hash
  deriving DecidableEq

inductive Event
  -- A new request is worked on.
  | request
  -- A decision, with the connection for which it is taken and whether its address is exempt from the
  -- verification of names.
  | decision (decided : AccessDecision) (conn : ServerConnectionState) (exempt granted : Bool)
  | opened (use : FileUse) (filename : CString)
  -- The cipher has been used with the key.
  | cipher (key : Option Buffer)
  -- Names have been accepted for the peer and its user, under the given trust, after the first one has been
  -- resolved or not.
  | identified (hostname username : CString) (trust resolved : Bool)
  -- A dialogue has been completed. If the key of the peer was accepted, then under the name of a user,
  -- and as a key that was known or not.
  | authenticated (accepted : Option (CString × Bool)) (session_key : Buffer)
  | executed (username : CString)
  -- A call of `SendTransaction` with the length that results. It may come from a variable that has not
  -- been set.
  | transaction (payload : Buffer) (length : Option Int) (status : TransactionStatus)
  | stream (payload : Buffer)

-- After the given number of `sends` the connection breaks down.
structure ServerState where
  conn  : ServerConnectionState
  sv    : ServerAccess
  inbox : List (Option Packet)
  sends : Nat

abbrev Serving : Type → Type := Traced ServerState Event

def cfProtoOffset : Nat := 16

def cfRsaProtoOffset : Nat := 24

def cfMd5Len : Nat := 16

def cfNonceLen : Nat := 256

def cfBlowfishSize : Nat := 16

def cfFailedStr : CString :=
  "BAD: Unspecified server refusal (see verbose server output)".toList

def cfdTerminator : CString :=
  "---cfXen/gine/cfXen/gine---".toList

-- The text that `snprintf` leaves in a buffer of size `CF_BUFSIZE`.
def printed (text : CString) : CString :=
  text.take (cfBufSize - 1)

def transactionLength (payload : Buffer) (len : Option Int) : Option Int :=
  len.map fun n => if n = 0 then (payload.toCString.length : Int) else n

def lengthFits : Option Int → Bool
  | some wlen => 0 ≤ wlen ∧ wlen ≤ (cfBufSize - cfInbandOffset : Nat)
  | none      => false

-- The length is one with which `SendTransaction` does not end the server.
def FitsPacket (len : Option Int) : Prop :=
  ∃ n, len = some n ∧ n ≤ (cfBufSize - cfInbandOffset : Nat)

def FitsText (text : Buffer) : Prop :=
  text.toCString.length ≤ cfBufSize - cfInbandOffset

instance {text : Buffer} : Decidable (FitsText text) :=
  inferInstanceAs <| Decidable (_ ≤ _)

theorem fitsText_of_length {text : Buffer} (h : text.length ≤ cfBufSize - cfInbandOffset) :
    FitsText text :=
  (Buffer.toCString_length text).trans h

theorem fitsText_printed {text : CString} (h : text.length ≤ cfBufSize - cfInbandOffset) :
    FitsText (printed text) := by
  apply fitsText_of_length
  exact (List.length_take_le' ..).trans h

theorem FitsText.fitsPacket {text : Buffer} (h : FitsText text) :
    FitsPacket (transactionLength text <| some 0) :=
  ⟨_, rfl, Int.ofNat_le.mpr h⟩

theorem fitsPacket_of_le {text : Buffer} {n : Int} (ht : FitsText text)
    (hn : n ≤ (cfBufSize - cfInbandOffset : Nat)) : FitsPacket (transactionLength text <| some n) := by
  refine ⟨_, rfl, ?_⟩
  dsimp only
  split
  case isTrue  => exact Int.ofNat_le.mpr ht
  case isFalse => exact hn

theorem fitsPacket_of_length {text : Buffer} (h : text.length ≤ cfBufSize - cfInbandOffset) :
    FitsPacket (transactionLength text <| some (text.length : Int)) :=
  fitsPacket_of_le (fitsText_of_length h) <| Int.ofNat_le.mpr h

-- The bytes from the start of a buffer, which has been filled with zeros.
def bytesFrom (data : Buffer) (len : Nat) : Buffer :=
  (data ++ List.replicate len '\x00').take len

def hashesMatch (digest1 digest2 : Buffer) : Bool :=
  bytesFrom digest1 cfMd5Len = bytesFrom digest2 cfMd5Len

-- The data in a buffer after others have been written to its start.
def overwrite (data buffer : Buffer) : Buffer :=
  data ++ buffer.drop data.length

theorem overwrite_length {data buffer : Buffer} (h : data.length ≤ buffer.length) :
    (overwrite data buffer).length = buffer.length := by
  rw [overwrite, List.length_append, List.length_drop]
  omega

namespace Serving

-- Whether the transmission succeeds.
def transmit : Serving Bool := do
  let s ← Traced.get
  Traced.modify fun s => { s with sends := s.sends - 1 }
  return 0 < s.sends

-- The server ends if the message is too long. The copy of a negative number of bytes is undefined.
def sendTransaction (payload : Buffer) (len : Option Int) (status : TransactionStatus) :
    Serving Bool := do
  let wlen := transactionLength payload len
  Traced.emit (.transaction payload wlen status)
  if lengthFits wlen then
    transmit
  else
    Traced.stop

def sendSocketStream (payload : Buffer) : Serving Bool := do
  Traced.emit (.stream payload)
  transmit

def receiveTransaction : Serving (Option Buffer) := do
  let s ← Traced.get
  match s.inbox with
  | []              => return none
  | packet :: inbox =>
    Traced.modify fun s => { s with inbox := inbox }
    return packet.map Packet.data

def encryptString (crypto : Crypto) (text : Buffer) : Serving (Option Buffer) := do
  let s ← Traced.get
  Traced.emit (.cipher s.conn.session_key)
  return crypto.encrypt s.conn.session_key text

def decryptString (crypto : Crypto) (text : Buffer) : Serving Buffer := do
  let s ← Traced.get
  Traced.emit (.cipher s.conn.session_key)
  return crypto.decrypt s.conn.session_key text

-- The length is the result of `EncryptString`, which is negative if it fails.
def sendEncrypted (crypto : Crypto) (text : Buffer) (status : TransactionStatus) :
    Serving Bool := do
  match ← encryptString crypto text with
  | some out => sendTransaction out (some out.length) status
  | none     => sendTransaction [] (some (-1)) status

-- A text whose length is not given.
def sendText (text : CString) : Serving Bool :=
  sendTransaction text (some 0) .done

def refuseAccess (size : Int) : Serving Unit := do
  let _ ← sendTransaction cfFailedStr (some size) .done

def failedTransfer : Serving Unit := do
  let _ ← sendText cfFailedStr

def terminate : Serving Unit := do
  let _ ← sendTransaction (cfdTerminator ++ ['\x00']) (some (cfdTerminator.length + 1)) .done

def helloText (conn : ServerConnectionState) : CString :=
  printed <| "Hello ".toList ++ conn.hostname ++ " (".toList ++ conn.ipaddr ++
    "), nothing relevant to do here...\n\n".toList

theorem fits_helloText {conn : ServerConnectionState} : FitsText (helloText conn) := by
  apply fitsText_printed
  have h₁ := conn.hostname_lt
  have h₂ := conn.ipaddr_lt
  have h₃ : ("Hello ".toList).length = 6 := rfl
  have h₄ : (" (".toList).length = 2 := rfl
  have h₅ : ("), nothing relevant to do here...\n\n".toList).length = 35 := rfl
  simp only [List.length_append, h₃, h₄, h₅, cfMaxVarSize, cfMaxIpLen, cfBufSize, cfInbandOffset] at *
  omega

def replyNothing : Serving Unit := do
  let s ← Traced.get
  let _ ← sendText <| helloText s.conn

section
variable {s : ServerState} {t : List Event} {payload : Buffer} {len : Option Int}
  {status : TransactionStatus} {crypto : Crypto} {text : Buffer}

@[simp] theorem ensures_transmit {Q : Option Bool → ServerState → List Event → Prop} :
    transmit.Ensures s t Q ↔ Q (some (0 < s.sends)) { s with sends := s.sends - 1 } t := by
  simp [transmit]

@[simp] theorem ensures_sendTransaction {Q : Option Bool → ServerState → List Event → Prop} :
    (sendTransaction payload len status).Ensures s t Q ↔
      (lengthFits (transactionLength payload len) = true → Q (some (0 < s.sends))
        { s with sends := s.sends - 1 }
        (.transaction payload (transactionLength payload len) status :: t)) ∧
      (¬lengthFits (transactionLength payload len) = true → Q none s
        (.transaction payload (transactionLength payload len) status :: t)) := by
  simp [sendTransaction]

@[simp] theorem ensures_sendSocketStream {Q : Option Bool → ServerState → List Event → Prop} :
    (sendSocketStream payload).Ensures s t Q ↔
      Q (some (0 < s.sends)) { s with sends := s.sends - 1 } (.stream payload :: t) := by
  simp [sendSocketStream]

@[simp] theorem ensures_encryptString {Q : Option (Option Buffer) → ServerState → List Event → Prop} :
    (encryptString crypto text).Ensures s t Q ↔
      Q (some (crypto.encrypt s.conn.session_key text)) s (.cipher s.conn.session_key :: t) := by
  simp [encryptString]

@[simp] theorem ensures_decryptString {Q : Option Buffer → ServerState → List Event → Prop} :
    (decryptString crypto text).Ensures s t Q ↔
      Q (some (crypto.decrypt s.conn.session_key text)) s (.cipher s.conn.session_key :: t) := by
  simp [decryptString]

theorem lengthFits_iff {wlen : Option Int} :
    lengthFits wlen = true ↔ ∃ n, wlen = some n ∧ 0 ≤ n ∧ n ≤ (cfBufSize - cfInbandOffset : Nat) := by
  cases wlen <;> simp [lengthFits]

end
end Serving

namespace ServerHost

variable (host : ServerHost) (now : Surroundings)

-- The address of the peer is listed in `SV.skipverify`.
def exempt (s : ServerState) : Bool :=
  host.matchers.isMatchItemIn s.sv.skipverify (mapAddress s.conn.ipaddr)

def decide (decided : AccessDecision) (granted : Bool) (conn : ServerConnectionState) :
    Serving Unit := do
  let s ← Traced.get
  Traced.emit (.decision decided s.conn (host.exempt s) granted)
  Traced.modify fun s => { s with conn := conn }

def accessControl (req_path : CString) (encrypt : Bool) : Serving Bool := do
  let s ← Traced.get
  let (granted, conn) := host.matchers.accessControl now.fs s.sv s.conn req_path encrypt
  host.decide (.accessControl req_path) granted conn
  return granted

def literalAccessControl (input : CString) (encrypt : Bool) : Serving Bool := do
  let s ← Traced.get
  let (granted, conn) := host.matchers.literalAccessControl s.sv s.conn input encrypt
  host.decide .literalAccessControl granted conn
  return granted

def contextAccessControl (input : CString) (encrypt : Bool) : Serving (List CString) := do
  let s ← Traced.get
  let (found, conn) := host.matchers.contextAccessControl s.sv s.conn input encrypt now.states
    (now.time.getD (-1)).toInt now.leftText
  host.decide .contextAccessControl (!found.isEmpty) conn
  return found

def authorizeRoles (args : CString) : Serving Bool := do
  let s ← Traced.get
  let granted := host.matchers.authorizeRoles s.sv s.conn args
  host.decide (.authorizeRoles args) granted s.conn
  return granted

section
variable {host : ServerHost} {now : Surroundings} {s : ServerState} {t : List Event}
  {req_path input args : CString} {encrypt : Bool}

@[simp] theorem ensures_accessControl {Q : Option Bool → ServerState → List Event → Prop} :
    (host.accessControl now req_path encrypt).Ensures s t Q ↔
      Q (some (host.matchers.accessControl now.fs s.sv s.conn req_path encrypt).1)
        { s with conn := (host.matchers.accessControl now.fs s.sv s.conn req_path encrypt).2 }
        (.decision (.accessControl req_path) s.conn (host.exempt s)
          (host.matchers.accessControl now.fs s.sv s.conn req_path encrypt).1 :: t) := by
  simp [accessControl, decide]

@[simp] theorem ensures_literalAccessControl {Q : Option Bool → ServerState → List Event → Prop} :
    (host.literalAccessControl input encrypt).Ensures s t Q ↔
      Q (some (host.matchers.literalAccessControl s.sv s.conn input encrypt).1)
        { s with conn := (host.matchers.literalAccessControl s.sv s.conn input encrypt).2 }
        (.decision .literalAccessControl s.conn (host.exempt s)
          (host.matchers.literalAccessControl s.sv s.conn input encrypt).1 :: t) := by
  simp [literalAccessControl, decide]

@[simp] theorem ensures_authorizeRoles {Q : Option Bool → ServerState → List Event → Prop} :
    (host.authorizeRoles args).Ensures s t Q ↔
      Q (some (host.matchers.authorizeRoles s.sv s.conn args)) s
        (.decision (.authorizeRoles args) s.conn (host.exempt s)
          (host.matchers.authorizeRoles s.sv s.conn args) :: t) := by
  simp [authorizeRoles, decide]

end
end ServerHost

-- A cipher that only pads the text. It stands for one whose key is known to both sides, in examples.
def Crypto.padding : Crypto where
  encrypt        := fun _ text =>
    let pad := 8 - text.length % 8
    some <| text ++ List.replicate pad (Char.ofNat pad)
  decrypt        := fun _ out => out.take <| out.length - (out.getLast?.getD '\x00').toNat
  privateDecrypt := fun _ => none
  publicEncrypt  := fun _ _ => none
  mpi2bn         := fun _ => none
  bn2mpi         := fun _ => List.replicate 4 '\x00'
  rsaSize        := fun _ => 0
  hashString     := fun _ => List.replicate 16 '\x00'
  hashPubKey     := fun _ => List.replicate 16 '\x00'
  encrypt_length := by
    intro _ text out h
    cases Option.some.inj h
    rw [List.length_append, List.length_replicate]
    omega
  decrypt_length := by
    intro _ text
    exact List.length_take_le' ..
  rsaSize_le     := nofun
  publicEncrypt_length := nofun
  bn2mpi_length  := by
    intro n k _
    rw [List.length_replicate]
    omega

-- A server without a key, for examples.
def publicHost : ServerHost where
  matchers        := plainMatchers
  crypto          := .padding
  pubkey          := none
  revision        := []
  cfruncommand    := []
  vfqname         := []
  denybadclocks   := true
  clockDrift      := 0
  revision_le     := by decide
  vfqname_lt      := by decide
  cfruncommand_lt := by decide
  pubkey_lt       := nofun

def closedAccess : ServerAccess :=
  ⟨[], [], [], [], [], [], [], []⟩

-- Nothing changes while the server works on a request.
def Surroundings.calm : Surroundings where
  fs            := publicServer
  restat        := fun path _ => publicServer.stat path
  time          := some 0
  getaddrinfo   := fun _ => []
  getpwnam      := fun _ => none
  havePublicKey := fun _ _ _ => none
  challenge     := 0
  states        := []
  popen         := fun _ => none
  terminating   := false
  leftText      := []
  leftStat      := ⟨.regular, 0, 0, 0, 0, 0, 0, 0, 0, 0, 0, 0⟩
  leftData      := []

end CfEngine
