import CfEngine.Libpromises.EnvContext.ClassStore
import CfEngine.Libpromises.ItemLib
import CfEngine.Libpromises.Matching

namespace CfEngine

inductive FileType
  | regular
  | link
  | dir
  | fifo
  | block
  | char
  | sock
  deriving DecidableEq

-- The data of a `struct stat`. The permissions are those of `st_mode & 07777`.
structure Stat where
  type   : FileType
  mode   : UInt32
  uid    : UInt32
  gid    : UInt32
  size   : UInt64
  atime  : Int64
  mtime  : Int64
  ctime  : Int64
  ino    : Int64
  nlink  : Int64
  dev    : Int64
  blocks : UInt64
  deriving DecidableEq

def pathMax : Nat := 4096

-- What the system calls find. Where `realpath` fails, its buffer is left with some text. There are no
-- contents of a file that can be opened, but not be read. The names in a directory have up to 255 characters.
structure FileSystem where
  realpath          : CString → Option CString
  unresolved        : CString → CString
  lstat             : CString → Option Stat
  stat              : CString → Option Stat
  readlink          : CString → Option CString
  readdir           : CString → Option (List CString)
  read              : CString → Option (Option Buffer)
  realpath_absolute : ∀ path r, realpath path = some r → r.head? = some '/'
  stat_length       : ∀ path s, stat path = some s → path.length < pathMax
  readdir_length    : ∀ path names, readdir path = some names → ∀ name ∈ names, name.length ≤ 255
  readlink_length   : ∀ path target, readlink path = some target → target.length < cfBufSize

-- A rule for the access to a file or to data of the server.
structure Auth where
  path         : CString
  accesslist   : List Item
  maproot      : List Item
  encrypt      : Bool
  literal      : Bool
  classpattern : Bool
  var          : Bool

structure ServerAccess where
  allowuserlist : List CString
  trustkeylist  : List CString
  skipverify    : List CString
  admitAuth     : List Auth
  deny          : List Auth
  varadmit      : List Auth
  vardeny       : List Auth
  roles         : List Auth

theorem length_nil_lt_cfMaxVarSize : ([] : CString).length < cfMaxVarSize := by decide

theorem length_take_lt_cfMaxIpLen (s : CString) : (s.take (cfMaxIpLen - 1)).length < cfMaxIpLen :=
  Nat.lt_of_le_of_lt (List.length_take_le ..) (by decide)

structure ServerConnectionState where
  id_verified     : Bool
  rsa_auth        : Bool
  maproot         : Bool
  trust           : Bool
  session_key     : Option Buffer
  digest          : Buffer
  hostname        : CString
  username        : CString
  uid             : UInt32
  encryption_type : Char
  ipaddr          : CString
  hostname_lt     : hostname.length < cfMaxVarSize
  ipaddr_lt       : ipaddr.length < cfMaxIpLen

-- What decides about names of hosts. The comparison of addresses is a parameter.
structure Matchers where
  ctx           : EvalContext
  pcre          : CString → CString → Bool
  fuzzySetMatch : CString → CString → Bool

def mapAddress (unspec_address : CString) : CString :=
  if unspec_address.take 7 = [':', ':', 'f', 'f', 'f', 'f', ':'] then
    unspec_address.drop 7
  else
    unspec_address

namespace Matchers

variable (m : Matchers)

def isMatchItemIn (list : List CString) (item : CString) : Bool :=
  item = [] ∨ list.any fun name =>
    m.fuzzySetMatch name item ∨ isRegex name ∧ fullTextMatch m.pcre name item

def isRegexItemIn (list : List Item) (regex : CString) : Bool :=
  m.ctx.isRegexItemIn m.pcre list regex

end Matchers

-- A server with the public file `/a` and the private file `/b`, for examples.
def publicStat (path : CString) : Option Stat :=
  if path = "/a".toList then some ⟨.regular, 0o644, 0, 0, 1, 0, 0, 0, 2, 1, 0, 1⟩
  else if path = "/b".toList then some ⟨.regular, 0o600, 0, 0, 1, 0, 0, 0, 3, 1, 0, 1⟩
  else none

theorem length_of_publicStat {path : CString} {s : Stat} (h : publicStat path = some s) :
    path.length = 2 := by
  rw [publicStat] at h
  split at h
  case isTrue hp => exact hp ▸ rfl
  case isFalse   =>
    split at h
    case isTrue hp => exact hp ▸ rfl
    case isFalse   => cases h

def publicServer : FileSystem where
  realpath          := fun path => if path = ['/'] then some ['/'] else none
  unresolved        := fun _ => []
  lstat             := publicStat
  stat              := publicStat
  readlink          := fun _ => none
  readdir           := fun _ => none
  read              := fun path => (publicStat path).map fun _ => some ['x']
  realpath_absolute := by
    intro path r h
    split at h
    case isTrue  => exact Option.some.inj h ▸ rfl
    case isFalse => cases h
  stat_length       := by
    intro path s h
    rw [length_of_publicStat h]
    decide
  readdir_length    := nofun
  readlink_length   := nofun

-- A peer with the address `1`, which has not authenticated itself.
def publicPeer (hostname : CString) (h : hostname.length < cfMaxVarSize := by decide) :
    ServerConnectionState where
  id_verified     := true
  rsa_auth        := false
  maproot         := false
  trust           := false
  session_key     := none
  digest          := []
  hostname        := hostname
  username        := []
  uid             := 1
  encryption_type := 'c'
  ipaddr          := ['1']
  hostname_lt     := h
  ipaddr_lt       := by decide

-- Texts match if they are equal.
def plainMatchers : Matchers where
  ctx           := ⟨∅, ∅, ∅, [], [], []⟩
  pcre          := fun regexp teststring => regexp = teststring
  fuzzySetMatch := fun name item => name = item

end CfEngine
