import CfEngine.CfServerd.Connection

namespace CfEngine

def badProtoReply (buf : Buffer) : Bool :=
  "BAD:".toList.isPrefixOf buf

def failedProtoReply (buf : Buffer) : Bool :=
  cfFailedStr.isPrefixOf buf

def cfChangedStr1 : CString :=
  "BAD: File changed ".toList

def cfChangedStr2 : CString :=
  "while copying".toList

-- The data in a buffer after some have been received into it.
def receivedInto (data buffer : Buffer) : Buffer :=
  overwrite (data ++ ['\x00']) buffer

-- The loop over the names in a buffer, and whether it meets the end of the transmission.
def remoteNames : Nat → Buffer → List CString × Bool
  | 0, _         => ([], false)
  | fuel + 1, sp =>
    if sp.headD '\x00' = '\x00' then
      ([], false)
    else if cfdTerminator.isPrefixOf sp then
      ([], true)
    else
      let name := Buffer.toCString sp
      let (names, ended) := remoteNames fuel (sp.drop (name.length + 1))
      (name :: names, ended)

-- The loop over the transactions, which come as a list. When there are no more, the call to receive one fails.
def receiveNames (decrypt : Option (Buffer → Buffer)) : Buffer → List CString → List Buffer → List CString
  | _, _, []                                => []
  | recvbuffer, files, packet :: packets =>
    if packet = [] then
      files
    else
      let recvbuffer := receivedInto packet recvbuffer
      let recvbuffer := decrypt.elim recvbuffer fun decryptString => overwrite (decryptString packet) recvbuffer
      if failedProtoReply recvbuffer then
        []
      else if badProtoReply recvbuffer then
        []
      else
        let (names, ended) := remoteNames recvbuffer.length recvbuffer
        if ended then
          files ++ names
        else
          receiveNames decrypt recvbuffer (files ++ names) packets

-- The names that are returned for the transactions that come back. There is no list for a name that is too long
-- for the request, or where the cipher has no key. The buffer holds what has been left in it.
def remoteDirList (crypto : Crypto) (session_key : Option Buffer) (encrypt : Bool) (dirname : CString)
    (recvbuffer : Buffer) (packets : List Buffer) : List CString :=
  if cfBufSize - 20 < dirname.length then
    []
  else if encrypt ∧ session_key = none then
    []
  else
    receiveNames (if encrypt then some (crypto.decrypt session_key) else none) recvbuffer [] packets

-- The calls of `CopyRegularFileNet` that act on other things than the stream, and whether they succeed.
structure CopyCalls where
  new       : CString
  opened    : Bool
  sent      : Bool
  truncated : Bool

-- The error messages that are looked for in what has been received.
def looksRefused (n_read_total : Nat) (buf : Buffer) : Bool :=
  (n_read_total = 0 ∧ cfFailedStr.isPrefixOf buf) ||
    (cfChangedStr1 ++ cfChangedStr2).isPrefixOf buf ||
    (0 < (assignedNumber (sscanf (Buffer.toCString buf) [.literal 't', .blanks, .int]) 0).getD (-1) ∧
      "BAD: ".toList.isPrefixOf (buf.drop cfInbandOffset))

-- The size that is asked of the server.
def copyBufSize : Nat := 2048

-- The loop of `CopyRegularFileNet`, with what has been written to the file. It comes to its end within as many
-- rounds as there are bytes, or after the first one.
def copyLoop (size : Nat) : Nat → RecvStream → Buffer → Nat → Buffer → Outcome (Option Buffer)
  | 0, _, _, _, _                                   => none
  | fuel + 1, stream, buf, n_read_total, written => do
    let toget := if copyBufSize ≤ size - n_read_total then copyBufSize else size - n_read_total
    let received ← stream.recvSocketStream toget
    if received.value = -1 then
      return none
    let buf := receivedInto received.buffer buf
    if looksRefused n_read_total buf then
      return none
    let written := written ++ buf.take received.value.toNat
    let n_read_total := n_read_total + toget
    if size ≤ n_read_total then
      return some written
    copyLoop size fuel received.stream buf n_read_total written

-- The data in a file that is cut off or filled up with zeros.
def ftruncate (size : Nat) (data : Buffer) : Buffer :=
  data.take size ++ List.replicate (size - data.length) '\x00'

-- The data in the file if the function returns true. The buffer holds what is found in the memory for it.
def copyRegularFileNet (calls : CopyCalls) (size : Nat) (stream : RecvStream) (buf : Buffer) :
    Outcome (Option Buffer) := do
  if cfBufSize - 20 < calls.new.length ∨ ¬calls.opened ∨ ¬calls.sent then
    return none
  match ← copyLoop size (size + 1) stream buf 0 [] with
  | none         => return none
  | some written => return if calls.truncated then some (ftruncate size written) else none

end CfEngine
