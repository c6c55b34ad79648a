import CfEngine.CfServerd.Connection
import CfEngine.Libpromises.FilesInterfaces

namespace CfEngine

def commandArg0 (execstr : CString) : CString :=
  let (start, delimiter) :=
    match execstr with
    | '"' :: start => (start, '"')
    | _            => (execstr, ' ')
  (start.take (cfBufSize - 1)).takeWhile (· ≠ delimiter)

-- The items have up to 255 characters, with the part of one that has been read.
def splitStringAsItemList (sep : Char) : CString → CString → List CString
  | node, []     => if node = [] then [] else [node.reverse]
  | node, c :: s =>
    if c = sep then
      if node = [] then splitStringAsItemList sep [] s
      else node.reverse :: splitStringAsItemList sep [] s
    else if node.length = 255 then
      node.reverse :: splitStringAsItemList sep [c] s
    else
      splitStringAsItemList sep (c :: node) s

-- The words of options are compared at a position in the arguments, given by the reversed text before it.
def optionFound (before rest word : CString) : Bool :=
  word.isPrefixOf rest ∧
    (word.length = 2 ∨ before = [] ∨
      before.head? = some ' ' ∧ (rest[word.length]?).all (· = ' '))

def blankOut (n : Nat) (rest : CString) : CString :=
  List.replicate n ' ' ++ rest.drop n

-- The lines up to the first of length 0: the end of the output, or a last line that begins with a terminator.
-- Each line takes a byte at least, so that the length of the output is enough for the number of them.
def readLines : Nat → Stream → List CString
  | 0, _         => []
  | fuel + 1, fp =>
    let (res, line, fp) := fp.cfReadLine [] cfBufSize
    if res = 0 then [] else line :: readLines fuel fp

namespace ServerHost

variable (host : ServerHost) (now : Surroundings)

-- What the items of a message decide: whether one of them is a class of this host, before one that ends
-- the list.
def classesDecide : List CString → Option Bool
  | []          => none
  | ip :: items =>
    let matched (contexts : StringSet) := ∃ c ∈ contexts, fullTextMatch host.matchers.pcre ip c
    if host.matchers.ctx.isDefinedClass ip none ∨ matched host.matchers.ctx.heapSoft ∨
        matched host.matchers.ctx.heapHard then
      some true
    else if cfdTerminator.isPrefixOf ip then
      some false
    else
      classesDecide items

def matchClassesLoop : Nat → Bool → Serving Bool
  | 0, _             => do
    Serving.replyNothing
    return false
  | rounds + 1, first => do
    match ← Serving.receiveTransaction with
    | none      => return false
    | some data =>
      let recvbuffer := data.toCString
      if cfdTerminator.isPrefixOf recvbuffer then
        if first then
          return true
        Serving.replyNothing
        return false
      match host.classesDecide <| splitStringAsItemList ' ' [] recvbuffer with
      | some true  => return true
      | some false =>
        Serving.replyNothing
        return false
      | none       => matchClassesLoop rounds false

def matchClasses : Serving Bool :=
  host.matchClassesLoop 10 true

def notAuthorized : CString :=
  printed <|
    "You are not authorized to activate these classes/roles on host ".toList ++ host.vfqname ++ ['\n']

theorem fits_notAuthorized : FitsText host.notAuthorized := by
  apply fitsText_printed
  have h := host.vfqname_lt
  have ht : ("You are not authorized to activate these classes/roles on host ".toList).length = 63 := rfl
  simp only [List.length_append, ht, List.length_cons, List.length_nil, cfMaxVarSize, cfBufSize,
    cfInbandOffset] at h ⊢
  omega

def sendNotAuthorized : Serving Unit := do
  let _ ← Serving.sendText host.notAuthorized

-- The loop over the arguments, which blanks out some options. The first number is that of the characters
-- that are left. There is no result if the arguments are refused.
def checkArgs : Nat → CString → CString → Serving (Option CString)
  | 0, before, rest     => return some (before.reverse ++ rest)
  | n + 1, before, rest => do
    if rest.head?.any (· ∈ [';', '&', '|']) then
      host.sendNotAuthorized
      return none
    let found (word : String) := optionFound before rest word.toList
    if (found "--define" ∨ found "-D") ∧
        ¬(found "-K" ∨ found "-f" ∨ found "--no-lock" ∨ found "--file") then
      if ¬(← host.authorizeRoles rest) then
        host.sendNotAuthorized
        return none
    let rest :=
      if found "-K" ∨ found "-f" then blankOut 2 rest
      else if found "--no-lock" then blankOut 9 rest
      else if found "--file" then blankOut 6 rest
      else rest
    checkArgs n (rest.take 1 ++ before) (rest.drop 1)

-- The loop over the lines of the output, which ends when a line cannot be sent.
def sendOutput : List CString → Serving Unit
  | []            => return
  | line :: lines => do
    if line.all isspace then
      sendOutput lines
    else if ← Serving.sendText <| printed <| line ++ ['\n'] then
      sendOutput lines

def runFailure (ebuff : CString) : CString :=
  printed <| "Unable to run ".toList ++ ebuff ++ ['\n']

def argsTooLong (ebuff : CString) : CString :=
  printed <| "Command line too long with args: ".toList ++ ebuff ++ ['\n']

def execNotice (ebuff : CString) : CString :=
  printed <| "cf-serverd Executing ".toList ++ ebuff ++ ['\n']

def runCommand (ebuff : CString) : Serving Unit := do
  match now.popen ebuff with
  | none        =>
    let _ ← Serving.sendText <| runFailure ebuff
  | some output => sendOutput <| readLines output.length ⟨output, false⟩

def execBuffer : CString :=
  printed <| host.cfruncommand ++ " --inform".toList

def checkAndRun (args : CString) : Serving Unit := do
  if host.cfruncommand = [] then
    let _ ← Serving.sendText "Exec request: no cfruncommand defined\n".toList
    return
  match ← host.checkArgs args.length [] args with
  | none      => return
  | some args =>
    let ebuff := host.execBuffer
    if cfBufSize < ebuff.length + args.length + 6 then
      let _ ← Serving.sendText <| argsTooLong ebuff
      return
    if args = [] then
      runCommand now ebuff
    else
      let ebuff := ebuff ++ ' ' :: args
      let _ ← Serving.sendText <| execNotice ebuff
      runCommand now ebuff

def doExec (args : CString) : Serving Unit := do
  let s ← Traced.get
  Traced.emit <| .executed s.conn.username
  host.checkAndRun now args

end ServerHost
end CfEngine
