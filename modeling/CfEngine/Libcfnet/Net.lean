import CfEngine.Libpromises.EnvContext
import CfEngine.Libutils.Scanf

namespace CfEngine

def cfInbandOffset : Nat := 8

inductive TransactionStatus
  | done
  | more
  deriving DecidableEq

def TransactionStatus.char : TransactionStatus → Char
  | done => 't'
  | more => 'm'

-- What happens to a call of `send` or `recv`: it is interrupted by a signal, or it transfers up to
-- `n + 1` bytes. A call after those that are given transfers as much as it can.
inductive StreamCall
  | interrupted
  | bytes (n : Nat)
  deriving DecidableEq

-- The bytes that are put on the stream.
def sendLoop : List StreamCall → Buffer → Buffer
  | [], buffer                    => buffer
  | .interrupted :: calls, buffer => sendLoop calls buffer
  | .bytes n :: calls, buffer     =>
    let sent := buffer.take (n + 1)
    if sent.length < buffer.length then
      sent ++ sendLoop calls (buffer.drop (n + 1))
    else
      sent

def sendSocketStream (calls : List StreamCall) (buffer : Buffer) (tosend : Nat) : Buffer :=
  sendLoop calls (buffer.take tosend)

def sendTransactionLength (buffer : Buffer) (len : Nat) : Nat :=
  if len = 0 then buffer.toCString.length else len

def transactionHeader (status : TransactionStatus) (wlen : Nat) : Buffer :=
  let work := (status.char :: ' ' :: (toString wlen).toList).take (cfInbandOffset - 1)
  work ++ List.replicate (cfInbandOffset - work.length) '\x00'

-- A message that is too long ends the program.
def sendTransaction (calls : List StreamCall) (buffer : Buffer) (len : Nat)
    (status : TransactionStatus) : Outcome Buffer :=
  let wlen := sendTransactionLength buffer len
  if cfBufSize - cfInbandOffset < wlen then
    none
  else if buffer.length < wlen then
    none
  else
    let work := transactionHeader status wlen ++ buffer.take wlen
    some <| sendSocketStream calls work (wlen + cfInbandOffset)

-- The receiving end of a stream: the bytes that are still to be received, whether the other end has
-- closed it, and the calls of `recv` to come.
structure RecvStream where
  pending : Buffer
  closed  : Bool
  calls   : List StreamCall

-- The value that is returned, and the bytes of the buffer before its terminator.
structure Received where
  value  : Int
  buffer : Buffer
  stream : RecvStream

namespace RecvStream

-- A `recv` for which there are no bytes to come. It times out unless the stream has been closed.
def endOfStream (stream : RecvStream) (already : Int) (buffer : Buffer) : Outcome Received :=
  if ¬stream.closed then
    some ⟨-1, buffer, stream⟩
  else if already < 0 then
    none
  else
    some ⟨already, buffer, stream⟩

-- The loop of `RecvSocketStream`. As an interrupted call is counted with its result -1, the position
-- goes back by one. It is undefined to write before the start of the buffer.
def recvLoop (closed : Bool) (toget : Nat) (calls : List StreamCall) (already : Int)
    (buffer pending : Buffer) : Outcome Received :=
  if already = toget then
    some ⟨already, buffer, pending, closed, calls⟩
  else
    match calls with
    | .interrupted :: calls => recvLoop closed toget calls (already - 1) buffer.dropLast pending
    | .bytes n :: calls     =>
      let got := pending.take (min (n + 1) (toget - already).toNat)
      if got = [] then
        endOfStream ⟨pending, closed, calls⟩ already buffer
      else if already < 0 then
        none
      else
        recvLoop closed toget calls (already + got.length) (buffer ++ got) (pending.drop got.length)
    | []                    =>
      let got := pending.take (toget - already).toNat
      let stream := ⟨pending.drop got.length, closed, []⟩
      if got ≠ [] ∧ already < 0 then
        none
      else if already + got.length = toget then
        some ⟨toget, buffer ++ got, stream⟩
      else
        endOfStream stream (already + got.length) (buffer ++ got)

def recvSocketStream (stream : RecvStream) (toget : Nat) : Outcome Received :=
  if cfBufSize - 1 < toget then
    some ⟨-1, [], stream⟩
  else
    recvLoop stream.closed toget stream.calls 0 [] stream.pending

-- The status and the length that are read from the header.
def scanProto (proto : CString) : Char × Nat :=
  let values := sscanf proto [.char, .blanks, .unsigned]
  let status := (assignedText values 0).bind List.head? |>.getD 'x'
  (status, (assignedNumber values 1).getD 0 |>.toNat)

-- The result together with the flag `more`.
def receiveTransaction (stream : RecvStream) : Outcome (Received × Bool) := do
  let header ← stream.recvSocketStream cfInbandOffset
  if header.value = -1 then
    return (header, false)
  let proto := header.buffer.toCString
  let (status, len) := scanProto proto
  if cfBufSize - cfInbandOffset < len then
    return (⟨-1, [], header.stream⟩, false)
  if proto.take 5 = ['C', 'A', 'U', 'T', 'H'] then
    return (⟨-1, [], header.stream⟩, false)
  let received ← header.stream.recvSocketStream len
  return (received, status = 'm')

end RecvStream
end CfEngine
