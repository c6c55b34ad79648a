import Mathlib.Data.List.Induction
import CfEngine.Library.Fields
import CfEngine.Libpromises.Policy

namespace CfEngine

open Boundaries

inductive HashMethod
  | md5
  | sha256
  deriving DecidableEq

def packUpIfElapsedSalt : CString :=
  ['p', 'a', 'c', 'k', 'a', 'g', 'e', 'u', 'p', 'l', 'i', 's', 't']

-- The bytes of a pointer.
def sizeofPointer : Nat := 8

-- The salt is compared with as many characters as a pointer has bytes, less one, and not with all of them.
def sharesLock (salt : CString) : Bool :=
  (packUpIfElapsedSalt.take (sizeofPointer - 1)).isPrefixOf salt

def noRvalHash : List CString :=
  [['m', 't', 'i', 'm', 'e'], ['a', 't', 'i', 'm', 'e'], ['c', 't', 'i', 'm', 'e']]

namespace Promise

-- A part of the offset as it is printed with `%u`.
def hashedOffset (n : Nat) : List CString :=
  if n = 0 then [] else [Nat.toDigits 10 (n % 2 ^ 32)]

end Promise

def PolicyBundle.hashed (bundle : PolicyBundle) : List CString :=
  bundle.ns.toList ++ bundle.name.toList

def ConstraintRval.hashed : ConstraintRval → List CString
  | scalar item => [item]
  | list item   => item
  | fnCall item => item.name :: item.args
  | nopromisee  => []

def Constraint.hashed (cp : Constraint) : List CString :=
  cp.lval :: if cp.lval ∈ noRvalHash then [] else cp.rval.hashed

namespace Promise

-- What `PromiseHash` hands to the digest, one piece after the other.
def hashed (pp : Promise) (salt : CString) : List CString :=
  (if sharesLock salt then [] else [pp.promiser]) ++
  pp.comment.toList ++
  (match pp.parentBundle with | some bundle => bundle.hashed | none => []) ++
  hashedOffset pp.offset.start ++ hashedOffset pp.offset.end ++ hashedOffset pp.offset.line ++
  [salt] ++
  pp.conlist.flatMap Constraint.hashed

def hash (digest : CString → List UInt8) (pp : Promise) (salt : CString) : List UInt8 :=
  digest (pp.hashed salt).flatten

end Promise

namespace Promise

-- What the agent is to tell promises apart by.
def identity (pp : Promise) : CString × Option CString × Option PolicyBundle × SourceOffset × List Constraint :=
  let masked (cp : Constraint) : Constraint := if cp.lval ∈ noRvalHash then ⟨cp.lval, .nopromisee⟩ else cp
  (pp.promiser, pp.comment, pp.parentBundle, pp.offset, pp.conlist.map masked)

end Promise

section
variable {type : HashMethod} {digest : CString → List UInt8} {tried : List (Promise × CString)} {pp : Promise}
  {operand : CString}

end

end CfEngine
