import Mathlib.Data.List.AList
import Mathlib.Data.List.DropRight
import CfEngine.Libpromises.EnvContext.Classes
import CfEngine.Libpromises.FilesNames
import CfEngine.Libpromises.Matching

namespace CfEngine

def cfIdRange : CString :=
  "[a-zA-Z0-9_$()\x7b\x7d\\[\\].:]+".toList

-- The regular expression `CF_IDRANGE` matches a full string of these characters.
def idRangeCharacter (c : Char) : Bool :=
  c.isAlphanum ∨ c ∈ ['_', '$', '(', ')', '\x7b', '\x7d', '[', ']', '.', ':']

def checkParseContext (context : CString) : Bool :=
  context = cfIdRange ∨ context ≠ [] ∧ context.all idRangeCharacter

inductive ContextStatePolicy
  | reset
  | preserve
  deriving DecidableEq

structure CfState where
  expires : Nat
  policy  : ContextStatePolicy
  deriving DecidableEq

-- The database of persistent classes. A cursor goes through its entries.
abbrev StateDb := AList fun _ : CString => CfState

inductive ContextScope
  | namespaceScope
  | bundleScope
  | noScope
  deriving DecidableEq

def persistentKey (context ns : CString) : CString :=
  (ns ++ cfNs :: context).take (cfBufSize - 1)

-- The time of expiry is stored as an `unsigned int`.
def expiryTime (now ttl_minutes : Nat) : Nat :=
  (now + ttl_minutes * 60 % 2 ^ 32) % 2 ^ 32

def evalContextHeapPersistentSave (db : StateDb) (now : Nat) (context ns : CString)
    (ttl_minutes : Nat) (policy : ContextStatePolicy) : StateDb :=
  let name := persistentKey context ns
  let state := { expires := expiryTime now ttl_minutes, policy }
  match db.lookup name with
  | some old => if old.policy = .preserve ∧ now < old.expires then db else db.insert name state
  | none     => db.insert name state

def evalContextHeapPersistentRemove (db : StateDb) (context : CString) : StateDb :=
  db.erase context

-- `sscanf(key, "%[^:]:%[^\n]", ns, name)`
def scanKey (key : CString) : CString × CString :=
  let ns := key.takeWhile (· ≠ cfNs)
  if ns = [] then
    ([], [])
  else
    (ns, (key.drop (ns.length + 1)).takeWhile (· ≠ '\n'))

namespace EvalContext

def isRegexItemIn (pcre : CString → CString → Bool) (ctx : EvalContext) (list : List Item)
    (regex : CString) : Bool :=
  list.any fun ptr =>
    (ptr.classes = none ∨ ctx.isDefinedClass ptr.classes none) ∧
    (regex = ptr.name ∨ fullTextMatch pcre regex ptr.name ∨ fullTextMatch pcre ptr.name regex)

-- The classes that abort a bundle only set the flag `ABORTBUNDLE`, which is not modelled.
def evalContextHeapAddSoft (pcre : CString → CString → Bool) (ctx : EvalContext)
    (context : CString) (ns : Option CString) : Outcome EvalContext := do
  if cfMaxVarSize ≤ context.length then
    none
  let canonified_context := canonifyNameInPlace (chop context cfExpandSize)
  let context_copy := (qualifiedBy ns canonified_context).take (cfMaxVarSize - 1)
  if context_copy = [] then
    return ctx
  if ctx.isRegexItemIn pcre ctx.heapAbort context_copy then
    none
  if ctx.evalContextHeapContainsSoft context_copy then
    return ctx
  let ctx := { ctx with heapSoft := insert context_copy ctx.heapSoft }
  if ctx.heapAbort.any fun ip => ctx.isDefinedClass ip.name ns then
    none
  return ctx

-- The position of the frame in the stack. The callers do not survive a missing frame.
def lastStackFrameBundle (ctx : EvalContext) : Outcome Nat := do
  let last_frame ← ctx.lastStackFrame 0
  match last_frame.data with
  | .bundle ..         => return 0
  | .promise           => return 1
  | .body _            => return 2
  | .promiseIteration  => return 2

-- Replaces the sets of the bundle frame at a position.
def updateBundle (ctx : EvalContext) (offset : Nat)
    (f : Bundle → StringSet → StringSet → StringSet × StringSet) : Outcome EvalContext := do
  let frame ← ctx.lastStackFrame offset
  match frame.data with
  | .bundle owner contexts contexts_negated =>
    let (contexts, contexts_negated) := f owner contexts contexts_negated
    let frame := { frame with data := .bundle owner contexts contexts_negated }
    return { ctx with stack := ctx.stack.set offset frame }
  | _ => none

def evalContextStackFrameAddSoft (pcre : CString → CString → Bool) (ctx : EvalContext)
    (context : CString) : Outcome EvalContext := do
  let offset ← ctx.lastStackFrameBundle
  let frame ← ctx.lastStackFrame offset
  match frame.data with
  | .bundle owner _ _ => do
    if owner.ns = defaultNs ∧ cfMaxVarSize ≤ context.length then
      none
    let copy := (qualifiedBy (some owner.ns) context).take (cfMaxVarSize - 1)
    let copy := chop copy cfExpandSize
    if copy = [] then
      return ctx
    if ctx.isRegexItemIn pcre ctx.heapAbort copy then
      none
    if ctx.evalContextStackFrameContainsSoft copy then
      return ctx
    let ctx ← ctx.updateBundle offset fun _ contexts contexts_negated =>
      (insert copy contexts, contexts_negated)
    if ctx.heapAbort.any fun ip => ctx.isDefinedClass ip.name (some owner.ns) then
      none
    return ctx
  | _ => none

def evalContextStackFrameAddNegated (ctx : EvalContext) (context : CString) :
    Outcome EvalContext := do
  let offset ← ctx.lastStackFrameBundle
  ctx.updateBundle offset fun _ contexts contexts_negated =>
    (contexts, insert context contexts_negated)

def evalContextHeapRemoveSoft (ctx : EvalContext) (context : CString) : EvalContext :=
  { ctx with heapSoft := ctx.heapSoft.erase context }

-- The part of `EvalContextHeapPersistentLoadAll` that handles an entry. The buffers for the parts of
-- the key have a fixed size.
def loadEntry (pcre : CString → CString → Bool) (now : Nat) (ctx : EvalContext)
    (entry : (_ : CString) × CfState) : Outcome EvalContext :=
  if entry.2.expires < now then
    some ctx
  else if cfNs ∈ entry.1 then
    let (ns, name) := scanKey entry.1
    if ns.length < cfMaxVarSize ∧ name.length < cfMaxVarSize then
      ctx.evalContextHeapAddSoft pcre name (some ns)
    else
      none
  else
    ctx.evalContextHeapAddSoft pcre entry.1 none

def removeExpired (db : StateDb) (now : Nat) : StateDb where
  entries  := db.entries.filter fun entry => now ≤ entry.2.expires
  nodupKeys := db.nodupKeys.sublist List.filter_sublist

def evalContextHeapPersistentLoadAll (pcre : CString → CString → Bool) (ctx : EvalContext)
    (db : StateDb) (now : Nat) : Outcome (EvalContext × StateDb) := do
  let ctx ← db.entries.foldlM (loadEntry pcre now) ctx
  return (ctx, removeExpired db now)

-- The part of `AddAllClasses` that defines a class that is not persistent.
def addInScope (pcre : CString → CString → Bool) (ctx : EvalContext) (classname ns : CString) :
    ContextScope → Outcome EvalContext
  | .bundleScope               => ctx.evalContextStackFrameAddSoft pcre classname
  | .namespaceScope | .noScope => ctx.evalContextHeapAddSoft pcre classname (some ns)

-- The parameter `persist` is a `bool`, which becomes the number of minutes.
def addAllClasses (pcre : CString → CString → Bool) (db : StateDb) (now : Nat) (ctx : EvalContext)
    (ns : CString) (list : List CString) (persist : Bool) (policy : ContextStatePolicy)
    (context_scope : ContextScope) : Outcome (EvalContext × StateDb) :=
  match list with
  | []         => some (ctx, db)
  | item :: rp => do
    let classname := canonifyNameInPlace item
    if persist then
      let name ← canonifyName item
      let db := evalContextHeapPersistentSave db now name ns persist.toNat policy
      let ctx ← ctx.evalContextHeapAddSoft pcre classname (some ns)
      addAllClasses pcre db now ctx ns rp persist policy context_scope
    else
      let ctx ← addInScope pcre ctx classname ns context_scope
      addAllClasses pcre db now ctx ns rp persist policy context_scope

def deleteAllClasses (db : StateDb) (ctx : EvalContext) (list : List CString) :
    Outcome (EvalContext × StateDb) :=
  match list with
  | []         => some (ctx, db)
  | item :: rp =>
    if checkParseContext item then do
      let db := evalContextHeapPersistentRemove db item
      let name ← canonifyName item
      let ctx ← (ctx.evalContextHeapRemoveSoft name).evalContextStackFrameAddNegated name
      deleteAllClasses db ctx rp
    else
      some (ctx, db)

end EvalContext
end CfEngine
