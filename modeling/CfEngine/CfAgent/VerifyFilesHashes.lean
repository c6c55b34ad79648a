import CfEngine.Libpromises.DbmApi
import Mathlib.Data.List.FinRange

namespace CfEngine
namespace FileHashes

open Function (update)

-- The methods that have a name.
inductive HashMethod
  | md5
  | sha224
  | sha256
  | sha384
  | sha512
  | sha1
  | sha
  | best
  | crypt
  deriving DecidableEq, Repr

def fileHashName : HashMethod → CString
  | .md5    => ['m', 'd', '5']
  | .sha224 => ['s', 'h', 'a', '2', '2', '4']
  | .sha256 => ['s', 'h', 'a', '2', '5', '6']
  | .sha384 => ['s', 'h', 'a', '3', '8', '4']
  | .sha512 => ['s', 'h', 'a', '5', '1', '2']
  | .sha1   => ['s', 'h', 'a', '1']
  | .sha    => ['s', 'h', 'a']
  | .best   => ['b', 'e', 's', 't']
  | .crypt  => ['c', 'r', 'y', 'p', 't']

def fileHashSize : HashMethod → Nat
  | .md5    => 16
  | .sha224 => 28
  | .sha256 => 32
  | .sha384 => 48
  | .sha512 => 64
  | .sha1   => 20
  | .sha    => 20
  | .best   => 0
  | .crypt  => 64

def evpMaxMdSize : Nat := 64

abbrev Digest := Fin (evpMaxMdSize + 1) → UInt8

def cfIndexFieldLen : Nat := 7

def cfIndexOffset : Nat := cfIndexFieldLen + 1

-- A path has no terminator in it.
abbrev PathName := { name : CString // '\x00' ∉ name }

-- The records of the database are the digests. The keys are those of the complex functions, which are
-- blocks of bytes.
abbrev ChecksumDB := DB Digest

def indexField (type : HashMethod) : Buffer :=
  let field := (fileHashName type).take cfIndexFieldLen
  field ++ List.replicate (cfIndexOffset - field.length) '\x00'

def newIndexKey (type : HashMethod) (name : CString) : Buffer :=
  indexField type ++ name ++ ['\x00']

def readHash (db : ChecksumDB) (type : HashMethod) (name : CString) : Option Digest :=
  db.readDB (newIndexKey type name)

def writeHash (db : ChecksumDB) (type : HashMethod) (name : CString) (digest : Digest) : ChecksumDB :=
  db.writeDB (newIndexKey type name) digest

def deleteHash (db : ChecksumDB) (type : HashMethod) (name : CString) : ChecksumDB :=
  db.deleteDB (newIndexKey type name)

def digestsDiffer (size : Nat) (digest dbdigest : Digest) : Bool :=
  (List.finRange _).any fun i => i < size ∧ digest i ≠ dbdigest i

def fileHashChanged (db : ChecksumDB) (filename : CString) (digest : Digest) (type : HashMethod)
    (update : Bool) : Bool × ChecksumDB :=
  match readHash db type filename with
  | some dbdigest =>
    if digestsDiffer (fileHashSize type) digest dbdigest then
      (true, if update then writeHash (deleteHash db type filename) type filename digest else db)
    else
      (false, db)
  | none => (false, writeHash db type filename digest)

-- The paths that `stat` finds are a parameter. Without a path the records of all files are looked
-- through.
def purgeHashes (found : CString → Bool) (db : ChecksumDB) (path : Option CString) (update : Bool) :
    ChecksumDB :=
  match path with
  | some path => if found path then db else db.deleteDB (path ++ ['\x00'])
  | none      => fun key =>
    if !found (Buffer.toCString <| key.drop cfIndexOffset) && update then none else db key

section

variable {db : ChecksumDB} {type type' : HashMethod} {name name' : CString} {digest : Digest}

theorem indexField_length (type : HashMethod) : (indexField type).length = cfIndexOffset := by
  cases type <;> rfl

theorem indexField_injective {type type' : HashMethod} (h : indexField type = indexField type') :
    type = type' := by
  cases type <;> cases type' <;> first | rfl | exact absurd h (by decide)

theorem terminator_mem_indexField (type : HashMethod) : '\x00' ∈ indexField type := by
  cases type <;> decide

theorem newIndexKey_inj (h : newIndexKey type name = newIndexKey type' name') :
    type = type' ∧ name = name' := by
  rw [newIndexKey, newIndexKey, List.append_left_inj] at h
  have hfield := List.append_inj h <| (indexField_length _).trans (indexField_length _).symm
  exact ⟨indexField_injective hfield.1, hfield.2⟩

-- A path alone is no key of a record.
theorem pathKey_ne_newIndexKey (path : PathName) : newIndexKey type name ≠ path.val ++ ['\x00'] := by
  intro h
  rw [newIndexKey, List.append_left_inj] at h
  exact path.property <| h ▸ List.mem_append_left _ (terminator_mem_indexField type)

@[simp]
theorem readHash_writeHash_self : readHash (writeHash db type name digest) type name = some digest :=
  db.writeDB_self

theorem readHash_writeHash_of_ne (h : ¬(type' = type ∧ name' = name)) :
    readHash (writeHash db type name digest) type' name' = readHash db type' name' :=
  db.writeDB_of_ne fun hkey => h <| newIndexKey_inj hkey

theorem readHash_deleteHash_of_ne (h : ¬(type' = type ∧ name' = name)) :
    readHash (deleteHash db type name) type' name' = readHash db type' name' :=
  db.deleteDB_of_ne fun hkey => h <| newIndexKey_inj hkey

theorem digestsDiffer_iff {size : Nat} {digest dbdigest : Digest} :
    digestsDiffer size digest dbdigest ↔ ∃ i, i.val < size ∧ digest i ≠ dbdigest i := by
  simp [digestsDiffer]

-- A path that is not found has nothing deleted.
theorem readHash_purgeHashes_some {found : CString → Bool} {update : Bool} (path : PathName) :
    readHash (purgeHashes found db (some path.val) update) type name = readHash db type name := by
  rw [purgeHashes]
  split
  case isTrue  => rfl
  case isFalse => exact db.deleteDB_of_ne <| pathKey_ne_newIndexKey path

end

end FileHashes
end CfEngine
