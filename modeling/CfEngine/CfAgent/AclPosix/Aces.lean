import CfEngine.CfAgent.AclPosix.Modes
import CfEngine.Library.Entries

namespace CfEngine

-- The type of the tag of an entry, with the qualifier that a user or a group has.
inductive AclEntity
  | userObj
  | user (id : UInt32)
  | groupObj
  | group (id : UInt32)
  | mask
  | other
  deriving DecidableEq

abbrev AclPerms : Type := AclPerm → Bool

def AclPerms.none : AclPerms :=
  fun _ => false

abbrev Acl : Type := List (Σ _ : AclEntity, AclPerms)

-- The entries whose permissions the mask limits.
def AclEntity.inGroupClass : AclEntity → Bool
  | user _   => true
  | groupObj => true
  | group _  => true
  | _        => false

def Acl.groupClassPerms (acl : Acl) : AclPerms :=
  fun perm => acl.any fun ace => ace.1.inGroupClass && ace.2 perm

-- The calls on whole lists of entries. None of them gives a result if it fails. An entry is created, gets its entity
-- from the one that has been parsed, and loses its permissions, in one call here.
structure AclCalls where
  getFile     : Acl → Option Acl
  init        : Nat → Option Acl
  dup         : Acl → Option Acl
  createEntry : Acl → AclEntity → Option Acl
  calcMask    : Acl → Option Acl
  setFile     : Acl → Bool

-- The numbers that belong to the names of users and groups.
structure AclNames where
  getpwnam : CString → Option UInt32
  getgrnam : CString → Option UInt32

def AclNames.entity (find : CString → Option UInt32) (obj : AclEntity) (entity : UInt32 → AclEntity)
    (ids : CString) : Option AclEntity :=
  if ids = ['*'] then some obj else (find ids).map entity

-- What is named, the string after it, and whether there has been a mask.
def parseEntityPosixLinux (names : AclNames) (has_mask : Bool) : CString → Option (AclEntity × CString × Bool)
  | 'u' :: 's' :: 'e' :: 'r' :: ':' :: str        =>
    (AclNames.entity names.getpwnam .userObj .user <| str.takeWhile (· ≠ ':')).map fun entity =>
      (entity, str.dropWhile (· ≠ ':'), has_mask)
  | 'g' :: 'r' :: 'o' :: 'u' :: 'p' :: ':' :: str =>
    (AclNames.entity names.getgrnam .groupObj .group <| str.takeWhile (· ≠ ':')).map fun entity =>
      (entity, str.dropWhile (· ≠ ':'), has_mask)
  | 'a' :: 'l' :: 'l' :: ':' :: str               => some (.other, ':' :: str, has_mask)
  | 'm' :: 'a' :: 's' :: 'k' :: ':' :: str        => some (.mask, ':' :: str, true)
  | _                                             => none

def findACE (acl : Acl) (ace_find : AclEntity) : Option AclPerms :=
  acl.dlookup ace_find

def permsetEquals (first second : AclPerms) : Bool :=
  [.read, .write, .execute].all fun perm => first perm = second perm

def aclEquals (first second : Acl) : Bool :=
  first.length = second.length ∧ first.all fun ace =>
    match findACE second ace.1 with
    | none       => false
    | some perms => permsetEquals ace.2 perms

inductive AclFailure
  -- The function fails before it sets anything.
  | failed
  | setFailed
  -- A mode is read beyond its terminator.
  | overread
  deriving DecidableEq

inductive PromiseResult
  | noop
  | change
  | warn
  deriving DecidableEq

inductive TransactionAction
  | fix
  | warn
  deriving DecidableEq

variable (calls : AclCalls) (names : AclNames)

-- The entry that a turn of the loop changes. An entry that has been created has no permissions.
def currentACE (acl_new : Acl) (entity : AclEntity) : Option (Acl × AclPerms) :=
  match findACE acl_new entity with
  | some perms => some (acl_new, perms)
  | none       => (calls.createEntry acl_new entity).map (·, AclPerms.none)

-- A turn of the loop over the entries of the promise.
def mergeACE (ace : CString) (has_mask : Bool) (acl_new : Acl) : Except AclFailure (Bool × Acl) :=
  match parseEntityPosixLinux names has_mask ace with
  | none                            => .error .failed
  | some (entity, cf_ace, has_mask) =>
    match currentACE calls acl_new entity, cf_ace with
    | some (acl_new, perms), ':' :: mode =>
      match parseModePosixLinux heldPermissions mode perms with
      | none                  => .error .overread
      | some (false, _, _)    => .error .failed
      | some (true, _, perms) => .ok (has_mask, acl_new.kreplace entity perms)
    | _, _                               => .error .failed

def mergeACEs : List CString → Bool → Acl → Except AclFailure (Bool × Acl)
  | [], has_mask, acl_new          => .ok (has_mask, acl_new)
  | ace :: aces, has_mask, acl_new => do
    let (has_mask, acl_new) ← mergeACE calls names ace has_mask acl_new
    mergeACEs aces has_mask acl_new

def startAcl (method : AclMethod) (acl_existing : Acl) : Option Acl :=
  match method with
  | .append    => calls.dup acl_existing
  | .overwrite => calls.init 5

def calcMask (has_mask : Bool) (acl_new : Acl) : Except AclFailure Acl :=
  if has_mask then
    .ok acl_new
  else
    match calls.calcMask acl_new with
    | none         => .error .failed
    | some acl_new => .ok acl_new

-- The list that the promise asks for. The first list only holds the entry that has been parsed.
def newAcl (method : AclMethod) (aces : List CString) (acl_existing : Acl) : Except AclFailure Acl :=
  match calls.init 1, startAcl calls method acl_existing with
  | some _, some acl_new => do
    let (has_mask, acl_new) ← mergeACEs calls names aces false acl_new
    calcMask calls has_mask acl_new
  | _, _                 => .error .failed

-- What is reported, and the list that the file has afterwards. The function returns true in this case.
def checkPosixLinuxACEs (method : AclMethod) (action : TransactionAction) (dontdo : Bool) (aces : List CString)
    (acl : Acl) : Except AclFailure (PromiseResult × Acl) :=
  match calls.getFile acl with
  | none              => .error .failed
  | some acl_existing => do
    let acl_new ← newAcl calls names method aces acl_existing
    if aclEquals acl_existing acl_new then
      .ok (.noop, acl)
    else
      match action with
      | .warn => .ok (.warn, acl)
      | .fix  =>
        if dontdo then
          .ok (.change, acl)
        else if calls.setFile acl_new then
          .ok (.change, acl_new)
        else
          .error .setFailed

end CfEngine
