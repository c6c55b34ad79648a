import CfEngine.CfAgent.FilesSelect.Commands
import CfEngine.Libpromises.Conversion
import CfEngine.Libpromises.EnvContext.Classes
import CfEngine.Libpromises.FilesNames
import CfEngine.Libpromises.Matching
import CfEngine.Libpromises.Modes

namespace CfEngine

def evalTokenFromList (set : StringSet) (token : CString) : ExpressionValue :=
  .ofBool (token ∈ set)

def evalWithTokenFromList (expr : CString) (token_set : StringSet) : Bool :=
  match (parseExpression expr 0 expr.length).result with
  | none     => false
  | some res => evalExpression (evalTokenFromList token_set) EvalContext.evalVarRef res = .true

def evalFileResult (file_result : CString) (leaf_attr : StringSet) : Bool :=
  evalWithTokenFromList file_result leaf_attr

-- What is asked of the system: whether a regular expression matches a full string, the names of users and groups, the
-- mode of a file and the target of a link, the lines that a command puts out, and whether it returns zero.
structure LeafSystem where
  pcre                    : CString → CString → Bool
  getpwuid                : Nat → Option CString
  getgrgid                : Nat → Option CString
  lstat                   : CString → Option (BitVec 32)
  readlink                : CString → Option CString
  cf_popen                : CString → Option (List CString)
  shellCommandReturnsZero : CString → Bool

structure FileStat where
  st_mode    : BitVec 32
  st_uid     : Nat
  st_gid     : Nat
  st_size    : Nat
  st_atime   : Int
  st_ctime   : Int
  st_mtime   : Int
  st_size_lt : st_size < 2 ^ 63

-- An empty list is the `NULL` pointer. The bounds of the sizes are those of a range from 0 on, or there is no range.
structure FileSelect where
  name         : List CString
  path         : List CString
  perms        : List CString
  owners       : List CString
  groups       : List CString
  max_size     : Int
  min_size     : Int
  max_ctime    : Int
  min_ctime    : Int
  max_mtime    : Int
  min_mtime    : Int
  max_atime    : Int
  min_atime    : Int
  exec_regex   : Option CString
  exec_program : Option CString
  filetypes    : List CString
  issymlinkto  : List CString
  result       : CString
  size_range   : (min_size = cfNoInt ∧ max_size = cfNoInt) ∨
    ((0 ≤ min_size ∧ min_size < 2 ^ 63) ∧ 0 ≤ max_size ∧ max_size < 2 ^ 63)

-- The conversion to an unsigned type.
def toSizeT (n : Int) : Nat :=
  (n % 2 ^ 64).toNat

def selectSizeMatch (size min max : Nat) : Bool :=
  size ≤ max ∧ size ≥ min

def sIfmt : BitVec 32 := 0o170000

def sIsdir (mode : BitVec 32) : Bool :=
  mode &&& sIfmt = 0o040000

-- The names of the types, with the bits of the mode.
def typeNames : List (BitVec 32 × CString) :=
  [(0o100000, ['r', 'e', 'g']), (0o100000, ['p', 'l', 'a', 'i', 'n']), (0o040000, ['d', 'i', 'r']),
    (0o120000, ['s', 'y', 'm', 'l', 'i', 'n', 'k']), (0o010000, ['f', 'i', 'f', 'o']),
    (0o140000, ['s', 'o', 'c', 'k', 'e', 't']), (0o020000, ['c', 'h', 'a', 'r']),
    (0o060000, ['b', 'l', 'o', 'c', 'k'])]

def typeAttr (mode : BitVec 32) : StringSet :=
  ((typeNames.filter fun t => mode &&& sIfmt = t.1).map Prod.snd).toFinset

def selectTypeMatch (lstatptr : FileStat) (crit : List CString) : Bool :=
  crit.any fun item => evalFileResult item <| typeAttr lstatptr.st_mode

def noName : CString :=
  ['n', 'o', 'n', 'e']

-- The number of a user or a group, and the name if there is one.
def selectIdMatch (fs : LeafSystem) (id : Nat) (name : Option CString) (crit : List CString) : Bool :=
  let buffer := Nat.toDigits 10 id
  let leafattrib : StringSet := {buffer, name.getD noName}
  crit.any fun item => evalFileResult item leafattrib || name.any (fullTextMatch fs.pcre item ·) ||
    fullTextMatch fs.pcre item buffer

def getOwnerName (fs : LeafSystem) (lstatptr : FileStat) : Option CString :=
  (fs.getpwuid lstatptr.st_uid).map (List.take (cfBufSize - 1))

def selectOwnerMatch (fs : LeafSystem) (lstatptr : FileStat) (crit : List CString) : Bool :=
  selectIdMatch fs lstatptr.st_uid (getOwnerName fs lstatptr) crit

def selectGroupMatch (fs : LeafSystem) (lstatptr : FileStat) (crit : List CString) : Bool :=
  selectIdMatch fs lstatptr.st_gid (fs.getgrgid lstatptr.st_gid) crit

def selectModeMatch (lstatptr : FileStat) (list : List CString) : Bool :=
  list.any fun item =>
    let mode := parseModeString (some item)
    let newperm := (lstatptr.st_mode &&& 0o7777 ||| mode.plusmask) &&& ~~~mode.minusmask
    mode.accepted && newperm &&& 0o7777 = lstatptr.st_mode &&& 0o7777

def selectTimeMatch (stattime fromtime totime : Int) : Bool :=
  fromtime < stattime ∧ stattime < totime

def selectNameRegexMatch (fs : LeafSystem) (filename crit : CString) : Bool :=
  fullTextMatch fs.pcre crit (readLastNode filename)

def selectPathRegexMatch (fs : LeafSystem) (filename crit : CString) : Bool :=
  fullTextMatch fs.pcre crit filename

-- Without a program, a null pointer is followed.
def selectExecRegexMatch (fs : LeafSystem) (filename crit : CString) (prog : Option CString) : Outcome Bool := do
  let buf ← execCommand (← prog) filename
  return ((fs.cf_popen buf).getD []).any (fullTextMatch fs.pcre crit ·)

def selectIsSymLinkTo (fs : LeafSystem) (filename : CString) : List CString → Bool
  | []         => false
  | item :: rp =>
    if (fs.lstat filename).any sIsdir then
      false
    else
      match fs.readlink filename with
      | none        => false
      | some target =>
        fullTextMatch fs.pcre item (target.take (cfBufSize - 1)) || selectIsSymLinkTo fs filename rp

def selectExecProgram (fs : LeafSystem) (filename command : CString) : Outcome Bool :=
  (execCommand command filename).map fs.shellCommandReturnsZero

namespace SelectToken

def leafName : CString := ['l', 'e', 'a', 'f', '_', 'n', 'a', 'm', 'e']

def leafPath : CString := ['l', 'e', 'a', 'f', '_', 'p', 'a', 't', 'h']

def pathName : CString := ['p', 'a', 't', 'h', '_', 'n', 'a', 'm', 'e']

def fileTypes : CString := ['f', 'i', 'l', 'e', '_', 't', 'y', 'p', 'e', 's']

def owner : CString := ['o', 'w', 'n', 'e', 'r']

def group : CString := ['g', 'r', 'o', 'u', 'p']

def mode : CString := ['m', 'o', 'd', 'e']

def atime : CString := ['a', 't', 'i', 'm', 'e']

def ctime : CString := ['c', 't', 'i', 'm', 'e']

def size : CString := ['s', 'i', 'z', 'e']

def mtime : CString := ['m', 't', 'i', 'm', 'e']

def issymlinkto : CString := ['i', 's', 's', 'y', 'm', 'l', 'i', 'n', 'k', 't', 'o']

def execRegex : CString := ['e', 'x', 'e', 'c', '_', 'r', 'e', 'g', 'e', 'x']

def execProgram : CString := ['e', 'x', 'e', 'c', '_', 'p', 'r', 'o', 'g', 'r', 'a', 'm']

end SelectToken

-- The tokens that are added to the attributes of the leaf, each with its condition.
def leafTokens (fs : LeafSystem) (path : CString) (sb : FileStat) (a : FileSelect) (exec_regex exec_program : Bool) :
    List (CString × Bool) :=
  [(SelectToken.leafName, a.name = [] ∨ a.name.any (selectNameRegexMatch fs path)),
    (SelectToken.leafPath, a.path = []),
    (SelectToken.pathName, a.path.any (selectPathRegexMatch fs path)),
    (SelectToken.fileTypes, selectTypeMatch sb a.filetypes),
    (SelectToken.owner, a.owners = [] ∨ selectOwnerMatch fs sb a.owners),
    (SelectToken.group, a.groups = [] ∨ selectGroupMatch fs sb a.groups),
    (SelectToken.mode, selectModeMatch sb a.perms),
    (SelectToken.atime, selectTimeMatch sb.st_atime a.min_atime a.max_atime),
    (SelectToken.ctime, selectTimeMatch sb.st_ctime a.min_ctime a.max_ctime),
    (SelectToken.size, selectSizeMatch sb.st_size (toSizeT a.min_size) (toSizeT a.max_size)),
    (SelectToken.mtime, selectTimeMatch sb.st_mtime a.min_mtime a.max_mtime),
    (SelectToken.issymlinkto, a.issymlinkto ≠ [] ∧ selectIsSymLinkTo fs path a.issymlinkto),
    (SelectToken.execRegex, exec_regex),
    (SelectToken.execProgram, exec_program)]

def leafAttr (tokens : List (CString × Bool)) : StringSet :=
  ((tokens.filter Prod.snd).map Prod.fst).toFinset

def selectLeaf (fs : LeafSystem) (path : CString) (sb : FileStat) (a : FileSelect) : Outcome Bool := do
  let exec_regex ← match a.exec_regex with
    | none      => some false
    | some crit => selectExecRegexMatch fs path crit a.exec_program
  let exec_program ← match a.exec_program with
    | none         => some false
    | some command => selectExecProgram fs path command
  return evalFileResult a.result <| leafAttr <| leafTokens fs path sb a exec_regex exec_program

end CfEngine
