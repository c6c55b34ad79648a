import Mathlib.Data.Finset.Basic
import CfEngine.Libpromises.Scope
import CfEngine.Libpromises.VarExpressions

namespace CfEngine

-- The outcome `none` stands for a call that does not return: the process exits, or its behaviour is
-- undefined. The checks of `assert` are not part of the program: by default it is built with
-- `NDEBUG`.
abbrev Outcome := Option

inductive AgentType
  | common
  | agent
  | server
  | monitor
  | executor
  | runagent
  | keygen
  | hub
  | noagent
  deriving DecidableEq

abbrev StringSet := Finset CString

structure Bundle where
  type : CString
  name : CString
  ns   : CString
  deriving DecidableEq

structure Body where
  name : CString
  deriving DecidableEq

inductive StackFrameData
  | bundle (owner : Bundle) (contexts contextsNegated : StringSet)
  | body (owner : Body)
  | promise
  | promiseIteration
  deriving DecidableEq

structure StackFrame where
  inheritsPrevious : Bool
  data             : StackFrameData
  deriving DecidableEq

structure Item where
  name    : CString
  classes : Option CString
  deriving DecidableEq

-- The last frame of the stack comes first.
structure EvalContext where
  heapSoft               : StringSet
  heapHard               : StringSet
  heapNegated            : StringSet
  heapAbort              : List Item
  heapAbortCurrentBundle : List Item
  stack                  : List StackFrame

def stackFrameNewBundle (owner : Bundle) (inherit_previous : Bool) : StackFrame where
  inheritsPrevious := inherit_previous
  data             := .bundle owner ∅ ∅

def stackFrameNewBody (owner : Body) : StackFrame where
  inheritsPrevious := false
  data             := .body owner

def stackFrameNewPromise : StackFrame where
  inheritsPrevious := true
  data             := .promise

def stackFrameNewPromiseIteration : StackFrame where
  inheritsPrevious := true
  data             := .promiseIteration

def scopeThisName : CString := ['t', 'h', 'i', 's']

def scopeBodyName : CString := ['b', 'o', 'd', 'y']

namespace EvalContext

def new : EvalContext where
  heapSoft               := ∅
  heapHard               := ∅
  heapNegated            := ∅
  heapAbort              := []
  heapAbortCurrentBundle := []
  stack                  := []

def lastStackFrame (ctx : EvalContext) (offset : Nat) : Option StackFrame :=
  ctx.stack[offset]?

-- The scope that an unqualified reference is looked up in.
def frameScope (reg : ScopeRegistry) (frame : StackFrame) : Option Nat :=
  match frame.data with
  | .body _                     => reg.scopeGet none scopeBodyName
  | .bundle bp _ _              => reg.scopeGet bp.ns bp.name
  | .promise | .promiseIteration => reg.scopeGet none scopeThisName

-- A variable that is not found is `some none`; the callers then get its name as a scalar of the type
-- `none`. An unqualified reference needs a frame on the stack.
def evalContextVariableGet (ctx : EvalContext) (reg : ScopeRegistry) (ref : VarRef) :
    Outcome (Option (Rval × DataType)) := do
  let get_scope ←
    if varRefIsQualified ref then
      pure <| reg.scopeGet ref.ns ref.scope
    else
      (ctx.lastStackFrame 0).map (frameScope reg)
  return do
    let t     ← reg.hashtable (← get_scope)
    let assoc ← hashLookupElement t (varRefToString ref false)
    return (assoc.rval, assoc.dtype)

end EvalContext
end CfEngine
