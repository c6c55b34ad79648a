import CfEngine.Libpromises.Assoc
import CfEngine.Libpromises.Vars

namespace CfEngine

-- A scope is identified by its address.
structure Scope where
  addr      : Nat
  ns        : CString
  scope     : CString
  hashtable : AssocHashTable

-- The globals `VSCOPE` and `SCOPE_MATCH`, and the address of the next allocation.
structure ScopeRegistry where
  vscope     : List Scope
  scopeMatch : Option Nat
  allocated  : Nat

def nsDefault : CString := ['d', 'e', 'f', 'a', 'u', 'l', 't']

def scopeMatchName : CString := ['m', 'a', 't', 'c', 'h']

namespace ScopeRegistry

def empty : ScopeRegistry where
  vscope     := []
  scopeMatch := none
  allocated  := 0

def scopeNew (reg : ScopeRegistry) (ns : Option CString) (scope : CString) :
    ScopeRegistry × Option Nat :=
  let ns := ns.getD nsDefault
  if reg.vscope.any (fun ptr => ptr.ns = ns && ptr.scope = scope) then
    (reg, none)
  else
    let ptr := { addr := reg.allocated, ns, scope, hashtable := hashInit }
    ({ reg with vscope := ptr :: reg.vscope, allocated := reg.allocated + 1 }, some ptr.addr)

def scopeGet (reg : ScopeRegistry) (ns scope : Option CString) : Option Nat :=
  match scope with
  | none       => none
  | some scope =>
    let ns := ns.getD nsDefault
    if scope = scopeMatchName then
      reg.scopeMatch
    else
      (reg.vscope.find? fun cp => cp.ns = ns && cp.scope = scope).map Scope.addr

-- The hashtable of the scope at an address.
def hashtable (reg : ScopeRegistry) (ptr : Nat) : Option AssocHashTable :=
  (reg.vscope.find? (·.addr = ptr)).map Scope.hashtable

def setHashtable (reg : ScopeRegistry) (ptr : Nat) (t : AssocHashTable) : ScopeRegistry :=
  { reg with
    vscope := reg.vscope.map fun s => if s.addr = ptr then { s with hashtable := t } else s }

end ScopeRegistry

-- `CompareVariableValue` and `UnresolvedVariables` look at a stored value through the type of the new
-- value. `text` is what they find when they read the first cell of a stored list as a string, and
-- `faults` tells whether it is a fault to read a stored string as the first cell of a list.
structure Memory where
  text   : CString
  faults : Bool

def Rval.asString (mem : Memory) : Rval → CString
  | .scalar s => s
  | .list _   => mem.text

def compareVariableValue (mem : Memory) (a b : Rval) : Int :=
  if ¬a.HasItem ∨ ¬b.HasItem then
    1
  else
    match a with
    | .scalar s => CString.strcmp (b.asString mem) s
    | .list l   => if l.any (fun s => CString.strcmp (b.asString mem) s = 0) then -1 else 0

-- The answer decides about a log message only.
def unresolvedVariables (mem : Memory) (rval : Rval) (rtype : RvalType) : Option Bool :=
  match rtype, rval with
  | .scalar, rval      => some <| isCf3VarString (rval.asString mem)
  | .list, .list l     => some <| l.any isCf3VarString
  | .list, .scalar _   => if mem.faults then none else some false

end CfEngine
