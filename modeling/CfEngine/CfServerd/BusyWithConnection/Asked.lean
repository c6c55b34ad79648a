import CfEngine.CfServerd.BusyWithConnection

namespace CfEngine

-- What the server does for a request if nothing ends it before: whether it takes a decision about access,
-- compares a hash, uses the cipher, or executes the command. The replies are short if each of them fits in a
-- packet.
structure Asked where
  decision : Prop := False
  hash     : Prop := False
  cipher   : Prop := False
  exec     : Prop := False
  short    : Prop := True

namespace Surroundings

variable (now : Surroundings)

def refusalFits (conn : ServerConnectionState) (filename : CString) (buf_size : Nat) : Prop :=
  transferRights conn (now.statFirst filename) = true ∨ buf_size ≤ cfBufSize - cfInbandOffset

-- If the size changes, the name fits in the message about it. The length of what is sent for an empty file is
-- that of the data that has been encrypted before, which there is not.
def contentFits (filename : CString) : Prop :=
  ∀ data, now.fs.read filename = some (some data) →
    (∀ n sb, now.restat filename n = some sb → sb.size ≠ (now.statFirst filename).size →
      FitsText (cfChangedStr filename)) ∧
    (data = [] → ∀ sb, now.restat filename 0 = some sb → sb.size ≠ (now.statFirst filename).size)

def statFits (ofilename : CString) : Prop :=
  let filename := translatePath ofilename
  if cfMaxLinkSize < (readLastNode filename).length then
    FitsText (suspiciousName filename)
  else
    match now.fs.lstat filename with
    | none         => FitsText (statFailure filename)
    | some statbuf =>
      if statbuf.type = .link then
        ∀ linkbuf, now.fs.readlink filename = some linkbuf → FitsText ("OK:".toList ++ linkbuf)
      else
        now.fs.stat filename = none → FitsText now.leftText

def FitsReply (crypto : Crypto) (encrypted : Bool) (key : Option Buffer) (text : CString) : Prop :=
  if encrypted then
    ∀ out, crypto.encrypt key (text ++ ['\x00']) = some out → out.length ≤ cfBufSize - cfInbandOffset
  else
    FitsText text

def listingFits (crypto : Crypto) (encrypted : Bool) (key : Option Buffer) (dirname : CString) : Prop :=
  isAbsoluteFileName dirname = true → now.fs.readdir dirname = none →
    FitsReply crypto encrypted key (openFailure dirname)

-- The lines of blanks are not sent.
def outputFits (ebuff : CString) : Prop :=
  match now.popen ebuff with
  | none        => FitsText (ServerHost.runFailure ebuff)
  | some output => ∀ line ∈ readLines output.length ⟨output, false⟩,
    line.all isspace = false → FitsText (printed <| line ++ ['\n'])

end Surroundings

namespace ServerHost

variable (host : ServerHost) (now : Surroundings) (s : ServerState) (recvbuffer : Buffer)

-- Whether the messages of the client decide that one of its classes is a class of this host.
def classesMatched : Nat → Bool → List (Option Packet) → Bool
  | rounds + 1, first, some packet :: inbox =>
    if cfdTerminator.isPrefixOf packet.data.toCString then
      first
    else
      match host.classesDecide <| splitStringAsItemList ' ' [] packet.data.toCString with
      | some matched => matched
      | none         => classesMatched rounds false inbox
  | _, _, _                                 => false

-- The arguments that are left if they are not refused.
def checkedArgs (sv : ServerAccess) (conn : ServerConnectionState) :
    Nat → CString → CString → Option CString
  | 0, before, rest     => some (before.reverse ++ rest)
  | n + 1, before, rest =>
    let found (word : String) := optionFound before rest word.toList
    let blanked :=
      if found "-K" ∨ found "-f" then blankOut 2 rest
      else if found "--no-lock" then blankOut 9 rest
      else if found "--file" then blankOut 6 rest
      else rest
    if rest.head?.any (· ∈ [';', '&', '|']) then
      none
    else if ((found "--define" ∨ found "-D") ∧
        ¬(found "-K" ∨ found "-f" ∨ found "--no-lock" ∨ found "--file")) ∧
        ¬host.matchers.authorizeRoles sv conn rest then
      none
    else
      checkedArgs sv conn n (blanked.take 1 ++ before) (blanked.drop 1)

def execFits (sv : ServerAccess) (conn : ServerConnectionState) (args : CString) : Prop :=
  host.cfruncommand ≠ [] → ∀ args', host.checkedArgs sv conn args.length [] args = some args' →
    if cfBufSize < host.execBuffer.length + args'.length + 6 then
      FitsText (argsTooLong host.execBuffer)
    else if args' = [] then
      now.outputFits host.execBuffer
    else
      FitsText (execNotice <| host.execBuffer ++ ' ' :: args') ∧
        now.outputFits (host.execBuffer ++ ' ' :: args')

def decipher (key : Option Buffer) : Buffer :=
  overwrite (host.crypto.decrypt key <| recvbuffer.drop cfProtoOffset) recvbuffer

theorem decipher_length (key : Option Buffer) :
    (host.decipher recvbuffer key).length = recvbuffer.length := by
  apply overwrite_length
  apply (host.crypto.decrypt_length ..).trans
  rw [List.length_drop]
  exact Nat.sub_le ..

def asksExec : Asked :=
  let identified := s.conn.id_verified ∧ s.sv.allowedUser s.conn.username ∧ s.conn.rsa_auth
  let (access, conn) :=
    host.matchers.accessControl now.fs s.sv s.conn (commandArg0 host.cfruncommand) false
  let exec := identified ∧ access ∧ host.classesMatched 10 true s.inbox
  { decision := identified
    exec     := exec
    short    := exec → host.execFits now s.sv conn (scanLine "EXEC".toList 255 recvbuffer.toCString) }

def asksGet : Asked :=
  let (buf_size, filename) := scanGet recvbuffer.toCString
  let (access, conn) := host.matchers.accessControl now.fs s.sv s.conn filename false
  let decision := 0 ≤ buf_size ∧ buf_size ≤ cfBufSize ∧ s.conn.id_verified
  { decision := decision
    short    := decision ∧ access →
      now.refusalFits conn (translatePath filename) (blockSize buf_size) }

def asksGetSecure : Asked :=
  let (len, buf_size) := scanGetSecure recvbuffer.toCString
  let plain := host.crypto.decrypt s.conn.session_key <| recvbuffer.drop cfProtoOffset
  let filename := Buffer.toCString <| plain.drop 13
  let (access, conn) := host.matchers.accessControl now.fs s.sv s.conn filename true
  let proper := recvbuffer.length = (len + cfProtoOffset) % 2 ^ 32
  let decision := proper ∧ Buffer.toCString (plain.take 3) = "GET".toList ∧ 0 ≤ buf_size ∧
    buf_size ≤ 8192 ∧ s.conn.id_verified
  { cipher   := proper
    decision := decision
    short    := decision ∧ access →
      now.refusalFits conn (translatePath filename) (blockSize buf_size) ∧
        now.contentFits (translatePath filename) }

def asksOpendir (encrypted : Bool) : Asked :=
  let filename := scanLine "OPENDIR".toList cfBufSize recvbuffer.toCString
  let dirname := if encrypted then filename else translatePath filename
  let (access, _) := host.matchers.accessControl now.fs s.sv s.conn filename true
  { decision := s.conn.id_verified
    short    := s.conn.id_verified ∧ access →
      now.listingFits host.crypto encrypted s.conn.session_key dirname }

def asksSync : Asked :=
  let (time_no_see, filename) := scanSync recvbuffer.toCString
  let (access, _) := host.matchers.accessControl now.fs s.sv s.conn filename true
  let decision := s.conn.id_verified ∧ time_no_see ≠ 0 ∧ filename ≠ [] ∧ now.time ≠ none
  let drift (tloc : Int64) := truncated <| tloc.toInt - time_no_see
  { decision := decision
    short    := decision ∧ access →
      (∃ tloc ∈ now.time, host.clocksApart (drift tloc)) ∨ now.statFits filename }

def asksMd5 : Asked where
  hash := s.conn.id_verified

def asksContext (encrypted : Bool) : Asked :=
  let (classes, _) := host.matchers.contextAccessControl s.sv s.conn recvbuffer.toCString encrypted now.states
    (now.time.getD (-1)).toInt now.leftText
  { decision := s.conn.id_verified
    short    := s.conn.id_verified ∧ classes ≠ [] →
      Surroundings.FitsReply host.crypto encrypted s.conn.session_key
        (Surroundings.contextReply classes []) }

def asksDecision : Asked where
  decision := s.conn.id_verified

def asksDecrypted (keyword : CString) (testsKey : Bool) (plain : CString) (asks : Buffer → Asked) : Asked :=
  let proper := lengthProper keyword recvbuffer ∧ ¬(testsKey ∧ s.conn.session_key = none)
  let decrypted := host.decipher recvbuffer s.conn.session_key
  { cipher   := proper
    decision := proper ∧ plain.isPrefixOf decrypted ∧ (asks decrypted).decision
    hash     := proper ∧ plain.isPrefixOf decrypted ∧ (asks decrypted).hash
    short    := proper ∧ plain.isPrefixOf decrypted → (asks decrypted).short }

def asks : ProtocolCommand → Asked
  | .exec          => host.asksExec now s recvbuffer
  | .get           => host.asksGet now s recvbuffer
  | .opendir       => host.asksOpendir now s recvbuffer false
  | .sync          => host.asksSync now s recvbuffer
  | .md5           => asksMd5 s
  | .var           => asksDecision s
  | .context       => host.asksContext now s recvbuffer false
  | .getSecure     => host.asksGetSecure now s recvbuffer
  | .opendirSecure =>
    host.asksDecrypted s recvbuffer "SOPENDIR".toList true "OPENDIR".toList (host.asksOpendir now s · true)
  | .syncSecure    =>
    host.asksDecrypted s recvbuffer "SSYNCH".toList true "SYNCH".toList (host.asksSync now s)
  | .md5Secure     =>
    host.asksDecrypted s recvbuffer "SMD5".toList false "MD5".toList fun _ => asksMd5 s
  | .varSecure     =>
    host.asksDecrypted s recvbuffer "SVAR".toList false "VAR".toList fun _ => asksDecision s
  | .contextSecure =>
    host.asksDecrypted s recvbuffer "SCONTEXT".toList false "CONTEXT".toList (host.asksContext now s · true)
  | .querySecure   =>
    host.asksDecrypted s recvbuffer "SQUERY".toList false "QUERY".toList fun _ => asksDecision s
  | .callMeBack    =>
    host.asksDecrypted s recvbuffer "SCALLBACK".toList false "CALL_ME_BACK collect_calls".toList
      fun _ => asksDecision s
  | .version | .authClear | .authSecure | .auth | .contexts | .bad => {}

variable {host now s recvbuffer}

theorem of_asks_exec {command : ProtocolCommand} (h : (host.asks now s recvbuffer command).exec) :
    s.sv.allowedUser s.conn.username = true ∧ s.conn.rsa_auth = true := by
  cases command
  case exec => exact h.left.right
  all_goals exact h.elim

end ServerHost
end CfEngine
