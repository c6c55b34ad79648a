import CfEngine.CfServerd.Authentication
import CfEngine.CfServerd.Exec
import CfEngine.CfServerd.Replies
import CfEngine.CfServerd.Transfer

namespace CfEngine

inductive ProtocolCommand
  | exec
  | auth
  | get
  | opendir
  | sync
  | contexts
  | md5
  | md5Secure
  | authClear
  | authSecure
  | syncSecure
  | getSecure
  | version
  | opendirSecure
  | var
  | varSecure
  | context
  | contextSecure
  | querySecure
  | callMeBack
  | bad
  deriving DecidableEq

def protocol : List (CString × ProtocolCommand) :=
  [("EXEC".toList, .exec), ("AUTH".toList, .auth), ("GET".toList, .get), ("OPENDIR".toList, .opendir),
    ("SYNCH".toList, .sync), ("CLASSES".toList, .contexts), ("MD5".toList, .md5),
    ("SMD5".toList, .md5Secure), ("CAUTH".toList, .authClear), ("SAUTH".toList, .authSecure),
    ("SSYNCH".toList, .syncSecure), ("SGET".toList, .getSecure), ("VERSION".toList, .version),
    ("SOPENDIR".toList, .opendirSecure), ("VAR".toList, .var), ("SVAR".toList, .varSecure),
    ("CONTEXT".toList, .context), ("SCONTEXT".toList, .contextSecure), ("SQUERY".toList, .querySecure),
    ("SCALLBACK".toList, .callMeBack)]

def getCommand (str : CString) : ProtocolCommand :=
  match protocol.find? fun (keyword, _) => keyword.isPrefixOf str with
  | some (_, command) => command
  | none              => .bad

-- The text after a keyword.
def scanLine (keyword : CString) (width : Nat) (recvbuffer : CString) : CString :=
  (assignedText (sscanf recvbuffer <| scanLiteral keyword ++ [.blanks, .line width]) 0).getD []

theorem scanLine_length (keyword : CString) (width : Nat) (recvbuffer : CString) :
    (scanLine keyword width recvbuffer).length ≤ recvbuffer.length := by
  unfold scanLine
  cases h : assignedText (sscanf recvbuffer <| scanLiteral keyword ++ [.blanks, .line width]) 0
  case none   => exact Nat.zero_le _
  case some _ => exact assignedText_length h

def scanLength (keyword : CString) (recvbuffer : CString) : Nat :=
  (assignedNumber (sscanf recvbuffer <| scanLiteral keyword ++ [.blanks, .unsigned]) 0).getD 0 |>.toNat

namespace ServerHost

variable (host : ServerHost) (now : Surroundings)

-- The end of a request that is not served.
def refuse (busy : Bool) : Serving Bool := do
  Serving.refuseAccess 0
  return busy

theorem transactionLength_cfFailedStr :
    transactionLength cfFailedStr (some 0) = some (cfFailedStr.length : Int) := by decide

theorem ensures_refuse {busy : Bool} {s : ServerState} {t : List Event}
    {Q : Option Bool → ServerState → List Event → Prop} :
    (refuse busy).Ensures s t Q ↔ Q (some busy) { s with sends := s.sends - 1 }
      (.transaction cfFailedStr (some (cfFailedStr.length : Int)) .done :: t) := by
  unfold refuse Serving.refuseAccess
  rw [Traced.ensures_bind, Traced.ensures_bind, Serving.ensures_sendTransaction,
    transactionLength_cfFailedStr]
  have hl : lengthFits (some (cfFailedStr.length : Int)) = true := by decide
  simp only [hl, forall_const, not_true, IsEmpty.forall_iff, and_true, Traced.then_some,
    Traced.ensures_pure]

-- The request is refused if the peer has not been identified.
def verified (busy : Bool) (serve : Serving Bool) : Serving Bool := do
  let s ← Traced.get
  if s.conn.id_verified then serve else refuse busy

-- The commands for which the loop over the commands is left at its end.
def deny : Serving Bool := do
  let _ ← Serving.sendText "BAD: Request denied\n".toList
  return false

def serveExec (recvbuffer : Buffer) : Serving Bool :=
  let args := scanLine "EXEC".toList 255 recvbuffer.toCString
  verified false do
    let s ← Traced.get
    if ¬s.sv.allowedUser s.conn.username then
      refuse false
    else if ¬s.conn.rsa_auth then
      refuse false
    else if ¬(← host.accessControl now (commandArg0 host.cfruncommand) false) then
      refuse false
    else if ¬(← host.matchClasses) then
      Serving.terminate
      return false
    else
      host.doExec now args
      Serving.terminate
      return false

def versionReply : CString :=
  printed <| "OK: 3.6.0a1.".toList ++ host.revision

theorem fits_versionReply : FitsText host.versionReply := by
  apply fitsText_printed
  have h := host.revision_le
  have ht : ("OK: 3.6.0a1.".toList).length = 12 := rfl
  rw [List.length_append, ht]
  simp only [cfBufSize, cfInbandOffset]
  omega

def serveVersion : Serving Bool := do
  let s ← Traced.get
  if ¬s.conn.id_verified then
    Serving.refuseAccess 0
  let _ ← Serving.sendText host.versionReply
  return s.conn.id_verified

def serveAuthClear (recvbuffer : Buffer) : Serving Bool := do
  let accepted ← host.verifyConnection now <| Buffer.toCString <| recvbuffer.drop 6
  Serving.setConn fun conn => { conn with id_verified := accepted }
  if accepted then return true else refuse false

def serveAuthSecure (recvbuffer : Buffer) : Serving Bool :=
  verified false do
    if ← host.authenticationDialogue now recvbuffer then return true else refuse false

-- The size of the blocks that is asked for.
def blockSize (buf_size : Int) : Nat :=
  if cfBufSize ≤ buf_size then 2048 else buf_size.toNat

-- The size of the blocks and the name of the file.
def scanGet (recvbuffer : CString) : Int × CString :=
  let values := sscanf recvbuffer <|
    scanLiteral "GET".toList ++ [.blanks, .int, .blanks, .line cfBufSize]
  ((assignedNumber values 0).getD 0, (assignedText values 1).getD [])

def serveGet (recvbuffer : Buffer) : Serving Bool := do
  let (buf_size, filename) := scanGet recvbuffer.toCString
  if buf_size < 0 ∨ cfBufSize < buf_size then
    refuse false
  else
    verified false do
      if ← host.accessControl now filename false then
        now.cfGetFile filename <| blockSize buf_size
        return true
      else
        refuse true

-- The length of what is encrypted and the size of the blocks.
def scanGetSecure (recvbuffer : CString) : Nat × Int :=
  let values := sscanf recvbuffer <|
    scanLiteral "SGET".toList ++ [.blanks, .unsigned, .blanks, .int]
  (((assignedNumber values 0).getD 0).toNat, (assignedNumber values 1).getD 0)

-- The length is a sum of values of type `unsigned int`.
def serveGetSecure (recvbuffer : Buffer) : Serving Bool := do
  let (len, buf_size) := scanGetSecure recvbuffer.toCString
  if recvbuffer.length ≠ (len + cfProtoOffset) % 2 ^ 32 then
    refuse false
  else
    let buffer ← Serving.decryptString host.crypto <| recvbuffer.drop cfProtoOffset
    let filename := Buffer.toCString <| buffer.drop 13
    if Buffer.toCString (buffer.take 3) ≠ "GET".toList then
      refuse true
    else if buf_size < 0 ∨ 8192 < buf_size then
      refuse false
    else
      verified false do
        if ← host.accessControl now filename true then
          now.cfEncryptGetFile host.crypto filename <| blockSize buf_size
          return true
        else
          refuse false

def lengthProper (keyword : CString) (recvbuffer : Buffer) : Bool :=
  let len := scanLength keyword recvbuffer.toCString
  len < cfBufSize ∧ recvbuffer.length = len + cfProtoOffset

-- The other commands that are encrypted have a keyword for what is sent and one for what it is decrypted to,
-- may test the key, and keep the connection or not when the length or the result is wrong.
def decrypted (keyword : CString) (testsKey lengthBusy : Bool) (plain : CString) (plainBusy : Bool)
    (recvbuffer : Buffer) (serve : Buffer → Serving Bool) : Serving Bool := do
  let s ← Traced.get
  if ¬lengthProper keyword recvbuffer then
    refuse lengthBusy
  else if testsKey ∧ s.conn.session_key = none then
    refuse false
  else
    let out ← Serving.decryptString host.crypto <| recvbuffer.drop cfProtoOffset
    let recvbuffer := overwrite out recvbuffer
    if plain.isPrefixOf recvbuffer then serve recvbuffer else refuse plainBusy

def serveOpendirSecure (recvbuffer : Buffer) : Serving Bool :=
  host.decrypted "SOPENDIR".toList true false "OPENDIR".toList true recvbuffer fun recvbuffer => do
    let filename := scanLine "OPENDIR".toList cfBufSize recvbuffer.toCString
    verified false do
      if ← host.accessControl now filename true then
        now.cfSecOpenDirectory host.crypto filename
        return true
      else
        refuse false

def serveOpendir (recvbuffer : Buffer) : Serving Bool := do
  let filename := scanLine "OPENDIR".toList cfBufSize recvbuffer.toCString
  verified false do
    if ← host.accessControl now filename true then
      now.cfOpenDirectory host.crypto filename
      return true
    else
      refuse false

def badClocks (tloc time_no_see : Int) : CString :=
  printed <| "BAD: Clocks are too far unsynchronized ".toList ++ (toString tloc).toList ++
    '/' :: (toString time_no_see).toList ++ ['\n']

theorem fits_badClocks {tloc : Int64} {time_no_see : Int} (h : -2 ^ 63 ≤ time_no_see)
    (h' : time_no_see < 2 ^ 64) : FitsText (badClocks tloc.toInt time_no_see) := by
  apply fitsText_printed
  have h₁ : (toString tloc.toInt).toList.length ≤ 20 :=
    length_toString_le tloc.le_toInt <| Int.lt_trans tloc.toInt_lt (by decide)
  have h₂ := length_toString_le h h'
  have ht : ("BAD: Clocks are too far unsynchronized ".toList).length = 39 := rfl
  simp only [List.length_append, ht, List.length_cons, List.length_nil, cfBufSize, cfInbandOffset]
  omega

-- The time of the client and the name of the file.
def scanSync (recvbuffer : CString) : Int × CString :=
  let values := sscanf recvbuffer <|
    scanLiteral "SYNCH".toList ++ [.blanks, .long, .blanks] ++ scanLiteral "STAT".toList ++
      [.blanks, .line cfBufSize]
  ((assignedNumber values 0).getD 0, (assignedText values 1).getD [])

-- Whether the clock of the client is too far off. Both products are of type int.
def clocksApart (drift : Int) : Bool :=
  host.denybadclocks ∧ truncated (host.clockDrift * host.clockDrift) < truncated (drift * drift)

def serveSync (recvbuffer : Buffer) : Serving Bool :=
  verified false do
    let (time_no_see, filename) := scanSync recvbuffer.toCString
    if time_no_see = 0 ∨ filename = [] then
      deny
    else
      match now.time with
      | none      => do
        let _ ← Serving.sendText "BAD: clocks out of synch".toList
        return true
      | some tloc => do
        let drift := truncated <| tloc.toInt - time_no_see
        if ¬(← host.accessControl now filename true) then
          refuse true
        else if host.clocksApart drift then
          let _ ← Serving.sendText <| badClocks tloc.toInt time_no_see
          return true
        else
          now.statFile filename
          return true

def serveSyncSecure (recvbuffer : Buffer) : Serving Bool :=
  host.decrypted "SSYNCH".toList true false "SYNCH".toList true recvbuffer (host.serveSync now)

def serveMd5 (recvbuffer : Buffer) : Serving Bool :=
  verified true do
    now.compareLocalHash host.crypto recvbuffer
    return true

def serveMd5Secure (recvbuffer : Buffer) : Serving Bool :=
  host.decrypted "SMD5".toList false true "MD5".toList false recvbuffer (host.serveMd5 now)

def serveVar (encrypted : Bool) (recvbuffer : Buffer) : Serving Bool :=
  verified true do
    if ← host.literalAccessControl recvbuffer.toCString encrypted then
      Surroundings.getServerLiteral host.crypto encrypted
      return true
    else
      refuse false

def serveVarSecure (recvbuffer : Buffer) : Serving Bool :=
  host.decrypted "SVAR".toList false true "VAR".toList false recvbuffer (host.serveVar true)

def serveContext (encrypted : Bool) (recvbuffer : Buffer) : Serving Bool :=
  verified true do
    let classes ← host.contextAccessControl now recvbuffer.toCString encrypted
    if classes = [] then
      refuse false
    else
      Surroundings.replyServerContext host.crypto encrypted classes
      return true

def serveContextSecure (recvbuffer : Buffer) : Serving Bool :=
  host.decrypted "SCONTEXT".toList false true "CONTEXT".toList false recvbuffer
    (host.serveContext now true)

-- There are no queries in this edition.
def serveQuerySecure (recvbuffer : Buffer) : Serving Bool :=
  host.decrypted "SQUERY".toList false true "QUERY".toList false recvbuffer fun recvbuffer =>
    verified true do
      if ← host.literalAccessControl recvbuffer.toCString true then deny else refuse false

-- There are no collect calls in this edition.
def serveCallMeBack (recvbuffer : Buffer) : Serving Bool :=
  host.decrypted "SCALLBACK".toList false true "CALL_ME_BACK collect_calls".toList false recvbuffer
    fun recvbuffer => verified true do
      if ← host.literalAccessControl recvbuffer.toCString true then return false else refuse false

def serve (recvbuffer : Buffer) : ProtocolCommand → Serving Bool
  | .exec                      => host.serveExec now recvbuffer
  | .get                       => host.serveGet now recvbuffer
  | .opendir                   => host.serveOpendir now recvbuffer
  | .sync                      => host.serveSync now recvbuffer
  | .md5                       => host.serveMd5 now recvbuffer
  | .md5Secure                 => host.serveMd5Secure now recvbuffer
  | .authClear                 => host.serveAuthClear now recvbuffer
  | .authSecure                => host.serveAuthSecure now recvbuffer
  | .syncSecure                => host.serveSyncSecure now recvbuffer
  | .getSecure                 => host.serveGetSecure now recvbuffer
  | .version                   => host.serveVersion
  | .opendirSecure             => host.serveOpendirSecure now recvbuffer
  | .var                       => host.serveVar false recvbuffer
  | .varSecure                 => host.serveVarSecure recvbuffer
  | .context                   => host.serveContext now false recvbuffer
  | .contextSecure             => host.serveContextSecure now recvbuffer
  | .querySecure               => host.serveQuerySecure recvbuffer
  | .callMeBack                => host.serveCallMeBack recvbuffer
  | .auth | .contexts | .bad   => deny

-- Whether the connection is kept for the next request.
def busyWithConnection : Serving Bool := do
  match ← Serving.receiveTransaction with
  | none            => return false
  | some recvbuffer =>
    if recvbuffer.toCString = [] ∨ now.terminating then
      return false
    Traced.emit .request
    host.serve now recvbuffer <| getCommand recvbuffer.toCString

end ServerHost

-- The connection while it is handled: its state, the events so far, and whether there will be more.
structure Connection where
  state : ServerState
  trace : List Event
  busy  : Bool

-- Some fields of a new connection are not set.
def newConn (memory : ServerConnectionState) (ipaddr : CString) : ServerConnectionState :=
  { memory with
    id_verified := false, rsa_auth := false, trust := false, hostname := [], username := [],
    session_key := none, encryption_type := 'c', ipaddr := ipaddr.take (cfMaxIpLen - 1),
    hostname_lt := length_nil_lt_cfMaxVarSize, ipaddr_lt := length_take_lt_cfMaxIpLen ipaddr }

namespace Connection

def new (memory : ServerConnectionState) (ipaddr : CString) (sv : ServerAccess)
    (inbox : List (Option Packet)) (sends : Nat) : Connection where
  state := ⟨newConn memory ipaddr, sv, inbox, sends⟩
  trace := []
  busy  := true

-- The loop of `HandleConnection`, whose rounds find the given surroundings.
def step (host : ServerHost) (c : Connection) (now : Surroundings) : Connection :=
  if c.busy then
    let (r, s, t) := host.busyWithConnection now c.state c.trace
    ⟨s, t, r.getD false⟩
  else
    c

end Connection
end CfEngine
