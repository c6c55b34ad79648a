import CfEngine.CfServerd.Connection

namespace CfEngine

def transferRights (conn : ServerConnectionState) (sb : Stat) : Bool :=
  conn.uid = 0 ∨ conn.maproot ∨ sb.uid = conn.uid ∨ sb.mode &&& 0o004 ≠ 0

-- What the calls of `read` return until there is nothing left. The data has up to `fuel` bytes.
def blocks (blocksize : Nat) : Nat → Buffer → List Buffer
  | 0, _           => []
  | fuel + 1, data =>
    if data = [] then [] else data.take blocksize :: blocks blocksize fuel (data.drop blocksize)

theorem length_of_mem_blocks {blocksize fuel : Nat} {data chunk : Buffer}
    (h : chunk ∈ blocks blocksize fuel data) : chunk.length ≤ blocksize := by
  induction fuel generalizing data
  case zero         => cases h
  case succ fuel ih =>
    unfold blocks at h
    split at h
    case isTrue  => cases h
    case isFalse =>
      cases List.mem_cons.mp h
      case inl h => exact h ▸ List.length_take_le ..
      case inr h => exact ih h

theorem headD_blocks {blocksize : Nat} {data : Buffer} :
    (blocks blocksize data.length data).headD [] = data.take blocksize := by
  cases data
  case nil  => exact List.take_nil.symm
  case cons => rfl

def cfChangedStr (filename : CString) : CString :=
  printed <| "BAD: File changed while copying: ".toList ++ filename

-- How often the loops read before they look at the size of the file again.
def restatInterval (sb : Stat) : Nat :=
  if 10485760 < sb.size then 32 else 3

namespace Surroundings

variable (now : Surroundings)

-- The data of the file before the transfer. It is not checked whether they have been found.
def statFirst (filename : CString) : Stat :=
  (now.fs.stat filename).getD now.leftStat

-- The size that the loops know in the given round.
def sizeInRound (filename : CString) (interval count size : Nat) : Option Nat :=
  if count % interval = 0 then
    (now.restat filename (count / interval)).map fun sb => sb.size.toNat
  else
    some size

def getBlockSize : Nat := 2048

def getFileLoop (filename : CString) (interval : Nat) :
    List Buffer → Nat → Nat → Int → Nat → Serving Unit
  | [], _, _, _, _                                => return
  | chunk :: chunks, count, total, sendlen, savedlen => do
    match now.sizeInRound filename interval count savedlen with
    | none      => return
    | some size =>
      if size ≠ savedlen then
        let text := overwrite (cfChangedStr filename ++ ['\x00']) chunk
        let _ ← Serving.sendSocketStream <| text.take getBlockSize
      else
        let sendlen :=
          if 0 < ((savedlen : Int) - total) / getBlockSize then (getBlockSize : Int)
          else if savedlen ≠ 0 then (savedlen : Int) - total
          else sendlen
        let zeros := List.replicate (getBlockSize - chunk.length) '\x00'
        if ← Serving.sendSocketStream <| (chunk ++ zeros).take sendlen.toNat then
          getFileLoop filename interval chunks (count + 1) (total + chunk.length) sendlen size

def cfGetFile (replyfile : CString) (buf_size : Nat) : Serving Unit := do
  let filename := translatePath replyfile
  let failed := overwrite (cfFailedStr ++ ['\x00']) now.leftData
  let sb := now.statFirst filename
  Traced.emit <| .opened .content filename
  let s ← Traced.get
  if ¬transferRights s.conn sb then
    Serving.refuseAccess buf_size
    let _ ← Serving.sendSocketStream <| failed.take buf_size
    return
  match now.fs.read filename with
  | none      =>
    let _ ← Serving.sendSocketStream <| failed.take buf_size
  | some data =>
    let data := data.getD []
    now.getFileLoop filename (restatInterval sb) (blocks getBlockSize data.length data) 0 0 0
      sb.size.toNat

def encryptBlockSize : Nat :=
  cfBufSize - 4 * cfInbandOffset

def abortTransfer (filename : CString) : Serving Unit := do
  let _ ← Serving.sendText <| cfChangedStr filename

-- The encrypted data that is sent is missing as long as nothing has been encrypted.
def sendBlock (out : Option Buffer) (status : TransactionStatus) : Serving Bool :=
  match out with
  | some out => Serving.sendTransaction out (some out.length) status
  | none     => Serving.sendTransaction now.leftData none status

-- A round that is not the last one ends with a transmission that succeeds.
def encryptFileLoop (crypto : Crypto) (filename : CString) (interval : Nat) :
    Nat → List Buffer → Nat → Nat → Option Buffer → Nat → Serving Unit
  | 0, _, _, _, _, _                                  => return
  | fuel + 1, chunks, count, total, out, savedlen => do
    match now.sizeInRound filename interval count savedlen with
    | none      => return
    | some size =>
      if size ≠ savedlen then
        abortTransfer filename
      else
        let chunk := chunks.headD []
        let total := total + chunk.length
        let encrypted ← if chunk = [] then pure out else Serving.encryptString crypto chunk
        if chunk ≠ [] ∧ encrypted = none then
          Serving.failedTransfer
        else if savedlen ≤ total then
          let _ ← now.sendBlock encrypted .done
        else if ← now.sendBlock encrypted .more then
          encryptFileLoop crypto filename interval fuel chunks.tail (count + 1) total encrypted size

-- The refusal does not end the transfer.
def cfEncryptGetFile (crypto : Crypto) (replyfile : CString) (buf_size : Nat) : Serving Unit := do
  let filename := translatePath replyfile
  let sb := now.statFirst filename
  Traced.emit <| .opened .content filename
  let s ← Traced.get
  if ¬transferRights s.conn sb then
    Serving.refuseAccess buf_size
    Serving.failedTransfer
  match now.fs.read filename with
  | none             => Serving.failedTransfer
  | some none        => return
  | some (some data) =>
    let s ← Traced.get
    now.encryptFileLoop crypto filename (restatInterval sb) (s.sends + 1)
      (blocks encryptBlockSize data.length data) 0 0 none sb.size.toNat

end Surroundings
end CfEngine
