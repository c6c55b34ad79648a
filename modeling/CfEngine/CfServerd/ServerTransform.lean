import CfEngine.CfServerd.Server
import CfEngine.Library.Chained
import CfEngine.Libpromises.FilesNames

namespace CfEngine

-- The right-hand side of a constraint in a promise about access.
inductive AccessRval
  | scalar (item : CString)
  | list (items : List CString)
  | fnCall

structure AccessConstraint where
  lval    : CString
  classes : CString
  rval    : AccessRval

structure AccessPromise where
  ns       : CString
  promiser : CString
  handle   : Option CString
  conlist  : List AccessConstraint

def remoteAccessAdmit : CString :=
  "admit".toList

def remoteAccessDeny : CString :=
  "deny".toList

def remoteAccessMaproot : CString :=
  "maproot".toList

def remoteAccessEncrypted : CString :=
  "ifencrypted".toList

inductive AuthList
  | admitList
  | denyList
  | varadmitList
  | vardenyList
  deriving DecidableEq

-- The fields of `SV` that are pointers: to the first element of a list, and to the last one.
inductive AuthVar
  | list (list : AuthList)
  | top (list : AuthList)
  deriving DecidableEq

-- The elements in memory, and the pointers to them.
structure AuthLists where
  cells : Links Auth
  vars  : AuthVar → Option Nat

namespace AuthLists

open Function (update)

def empty : AuthLists :=
  ⟨[], fun _ => none⟩

def newAuth (path : CString) : Auth where
  path         := path
  accesslist   := []
  maproot      := []
  encrypt      := false
  literal      := false
  classpattern := false
  var          := false

-- There is no result if a pointer is followed that is not to an element.
def setNext (cells : Links Auth) (a : Nat) (next : Option Nat) : Option (Links Auth) :=
  (cells.get a).map fun c => cells.put a <| some { c with next := next }

def modify (s : AuthLists) (ap : Option Nat) (f : Auth → Auth) : Option AuthLists :=
  match ap with
  | none   => none
  | some a => (s.cells.get a).map fun c => { s with cells := s.cells.put a <| some { c with payload := f c.payload } }

-- The pointers are given by the fields whose addresses are passed.
def installServerAuthPath (s : AuthLists) (path : CString) (list listtop : AuthVar) : Option AuthLists :=
  let ptr := s.cells.length
  let cells := s.cells ++ [some ⟨newAuth path, none⟩]
  match s.vars listtop with
  | none     => some ⟨cells, update (update s.vars list <| some ptr) listtop <| some ptr⟩
  | some top =>
    match setNext cells top <| some ptr with
    | none       => none
    | some cells => some ⟨cells, update s.vars listtop <| some ptr⟩

-- The loop over the elements. There is no result if it does not end within the elements there are.
def findAuthPath (cells : Links Auth) (path : CString) : Nat → Option Nat → Option (Option Nat)
  | _, none          => some none
  | 0, some _        => none
  | fuel + 1, some a =>
    match cells.get a with
    | none               => none
    | some ⟨auth, next⟩ => if auth.path = path then some (some a) else findAuthPath cells path fuel next

def unslashedPath (path : CString) : CString :=
  if path.length ≠ 1 then deleteSlash path else path

def getAuthPath (s : AuthLists) (path : CString) (list : AuthList) : Option (Option Nat) :=
  findAuthPath s.cells (unslashedPath path) s.cells.length <| s.vars (.list list)

-- The element is installed if it is not found.
def provideAuthPath (s : AuthLists) (path : CString) (searched : AuthList) (list listtop : AuthVar) :
    Option AuthLists :=
  match s.getAuthPath path searched with
  | none          => none
  | some (some _) => some s
  | some none     => s.installServerAuthPath path list listtop

-- A host or a user of a list in a constraint.
def keepItem (ap dp : Option Nat) (lval : CString) (s : AuthLists) (item : CString) : Option AuthLists :=
  if lval = remoteAccessAdmit then
    s.modify ap fun auth => { auth with accesslist := ⟨item, none⟩ :: auth.accesslist }
  else if lval = remoteAccessDeny then
    s.modify dp fun auth => { auth with accesslist := ⟨item, none⟩ :: auth.accesslist }
  else if lval = remoteAccessMaproot then
    s.modify ap fun auth => { auth with maproot := ⟨item, none⟩ :: auth.maproot }
  else
    some s

def keepConstraint (isDefinedClass : CString → Bool) (ap dp : Option Nat) (s : AuthLists) (cp : AccessConstraint) :
    Option AuthLists :=
  if !isDefinedClass cp.classes then
    some s
  else
    match cp.rval with
    | .scalar _   => if cp.lval = remoteAccessEncrypted then s.modify ap ({ · with encrypt := true }) else some s
    | .list items => items.foldlM (keepItem ap dp cp.lval) s
    | .fnCall     => some s

def keepConstraints (isDefinedClass : CString → Bool) (ap dp : Option Nat) (conlist : List AccessConstraint)
    (s : AuthLists) : Option AuthLists :=
  conlist.foldlM (keepConstraint isDefinedClass ap dp) s

-- The classes that are defined, by their contexts and the namespace.
variable (isDefinedClass : CString → CString → Bool)

def keepFileAccessPromise (s : AuthLists) (pp : AccessPromise) : Option AuthLists := do
  let promiser := if pp.promiser.length ≠ 1 then deleteSlash pp.promiser else pp.promiser
  let s ← s.provideAuthPath promiser .admitList (.list .admitList) (.top .admitList)
  let s ← s.provideAuthPath promiser .denyList (.list .denyList) (.top .denyList)
  let ap ← s.getAuthPath promiser .admitList
  let dp ← s.getAuthPath promiser .denyList
  s.keepConstraints (isDefinedClass pp.ns) ap dp pp.conlist

inductive LiteralType
  | literal
  | var
  | context
  deriving DecidableEq

-- The server data is registered in another edition only.
def keepLiteralAccessPromise (s : AuthLists) (pp : AccessPromise) : LiteralType → Option AuthLists
  | .literal  =>
    match pp.handle with
    | none        => some s
    | some handle => do
      let s ← s.provideAuthPath handle .varadmitList (.list .varadmitList) (.top .varadmitList)
      let s ← s.provideAuthPath handle .vardenyList (.list .vardenyList) (.top .vardenyList)
      let ap ← s.getAuthPath handle .varadmitList
      let dp ← s.getAuthPath handle .vardenyList
      let s ← s.modify ap ({ · with literal := true })
      s.keepConstraints (isDefinedClass pp.ns) ap dp pp.conlist
  | .context  => do
    let s ← s.provideAuthPath pp.promiser .varadmitList (.top .varadmitList) (.top .varadmitList)
    let s ← s.provideAuthPath pp.promiser .vardenyList (.list .vardenyList) (.top .vardenyList)
    let ap ← s.getAuthPath pp.promiser .varadmitList
    let dp ← s.getAuthPath pp.promiser .vardenyList
    let s ← s.modify ap ({ · with classpattern := true })
    s.keepConstraints (isDefinedClass pp.ns) ap dp pp.conlist
  | .var      => do
    let s ← s.provideAuthPath pp.promiser .varadmitList (.top .varadmitList) (.top .varadmitList)
    let s ← s.provideAuthPath pp.promiser .vardenyList (.list .vardenyList) (.top .vardenyList)
    let ap ← s.getAuthPath pp.promiser .varadmitList
    let dp ← s.getAuthPath pp.promiser .vardenyList
    let s ← s.modify ap ({ · with var := true })
    s.keepConstraints (isDefinedClass pp.ns) ap dp pp.conlist

def keepQueryAccessPromise (s : AuthLists) (pp : AccessPromise) : Option AuthLists := do
  let s ← s.provideAuthPath pp.promiser .varadmitList (.list .varadmitList) (.top .varadmitList)
  let s ← s.provideAuthPath pp.promiser .vardenyList (.list .vardenyList) (.top .vardenyList)
  let ap ← s.getAuthPath pp.promiser .varadmitList
  let dp ← s.getAuthPath pp.promiser .vardenyList
  let s ← s.modify ap ({ · with literal := true })
  s.keepConstraints (isDefinedClass pp.ns) ap dp pp.conlist

inductive AccessType
  | file
  | literal (type : LiteralType)
  | query
  deriving DecidableEq

def keepAccessPromise (s : AuthLists) (call : AccessType × AccessPromise) : Option AuthLists :=
  match call with
  | (.file, pp)         => s.keepFileAccessPromise isDefinedClass pp
  | (.literal type, pp) => s.keepLiteralAccessPromise isDefinedClass pp type
  | (.query, pp)        => s.keepQueryAccessPromise isDefinedClass pp

def keepAccessPromises (calls : List (AccessType × AccessPromise)) : Option AuthLists :=
  calls.foldlM (keepAccessPromise isDefinedClass) empty

end AuthLists
end CfEngine
