import CfEngine.Libpromises.EnvContext
import CfEngine.Libpromises.Expand.MapIterators
import CfEngine.Libpromises.Iteration
import CfEngine.Libpromises.Matching

namespace CfEngine

inductive FnCallResult
  | failure
  | success (rval : Rval)
  deriving DecidableEq

-- The names of the functions that `FilterInternal` distinguishes.
inductive FilterFn
  | grep
  | filter
  | every
  | some
  | none
  deriving DecidableEq

inductive SetopFn
  | intersection
  | difference
  deriving DecidableEq

-- Prints a number with `%d`.
def printInt (n : Nat) : CString :=
  Nat.toDigits 10 n

def contextResult (ret : Bool) : FnCallResult :=
  .success <| .scalar <| if ret then ['a', 'n', 'y'] else ['!', 'a', 'n', 'y']

def scalarResult : Option CString → FnCallResult
  | some s => .success (.scalar s)
  | none   => .failure

-- The loop of `FilterInternal`.
def filterLoop (fn : FilterFn) (found : CString → Bool) (max : Int) :
    List CString → (returnlist : List CString) → (match_count total : Nat) → List CString × Nat × Nat
  | [], returnlist, match_count, total         => (returnlist, match_count, total)
  | item :: rp, returnlist, match_count, total =>
    if match_count < max then
      if found item then
        if fn = .some then
          (returnlist ++ [item], match_count + 1, total)
        else
          filterLoop fn found max rp (returnlist ++ [item]) (match_count + 1) (total + 1)
      else if fn = .every then
        (returnlist, match_count, total + 1)
      else
        filterLoop fn found max rp returnlist match_count (total + 1)
    else
      (returnlist, match_count, total)

-- Whether `FilterInternal` counts the item.
def filterMatches (pcre : CString → CString → Bool) (regex : CString) (do_regex invert : Bool)
    (item : CString) : Bool :=
  let found := if do_regex then fullTextMatch pcre regex item else regex = item
  if invert then !found else found

def filterResult (fn : FilterFn) (returnlist : List CString) (match_count total : Nat) :
    FnCallResult :=
  match fn with
  | .every          => contextResult (match_count = total)
  | .none           => contextResult (match_count = 0)
  | .some           => contextResult (match_count > 0)
  | .grep | .filter => .success (.list returnlist)

def sublist (head : Bool) (max : Int) (l : List CString) : List CString :=
  if head then
    l.take max.toNat
  else if max > 0 then
    l.drop (if max ≥ l.length then 0 else (l.length - max).toNat)
  else
    []

-- The cell that `offset` steps lead to. A negative offset leads to the end of the list.
def nthCell : (offset : Int) → List CString → List CString
  | _, []           => []
  | offset, x :: rp => if offset ≠ 0 then nthCell (offset - 1) rp else x :: rp

-- One round of the loop of `FnCallSetop`.
def setopStep (fn : SetopFn) (set_b returnlist : List CString) (item : CString) : List CString :=
  if item = cfNullValue then returnlist
  else if fn = .difference ∧ item ∈ set_b then returnlist
  else if fn ≠ .difference ∧ item ∉ set_b then returnlist
  else rlistAppendScalarIdemp returnlist item

def joinItems (join : CString) : List CString → CString
  | []      => []
  | x :: rp =>
    if x = cfNullValue then joinItems join rp
    else if rp ≠ [] then x ++ join ++ joinItems join rp
    else x

namespace EvalContext

variable (pcre : CString → CString → Bool) (ctx : EvalContext) (reg : ScopeRegistry)

-- For a variable that is not a list, the log message reads its type through a null pointer.
def getListReferenceArgument (lval_str : CString) : Outcome (Option (List CString)) := do
  let ref ← varRefParse lval_str
  match ← ctx.evalContextVariableGet reg ref with
  | none                => return none
  | some (.list l, _)   => return some l
  | some (.scalar _, _) => none

def filterInternal (fn : FilterFn) (regex name : CString) (do_regex invert : Bool) (max : Int) :
    Outcome FnCallResult := do
  match ← ctx.getListReferenceArgument reg name with
  | none   => return .failure
  | some l =>
    let (returnlist, match_count, total) :=
      filterLoop fn (filterMatches pcre regex do_regex invert) max l [cfNullValue] 0 0
    return filterResult fn returnlist match_count total

def maxMatches : Int := 99999999999

def fnCallGrep (regex name : CString) : Outcome FnCallResult :=
  ctx.filterInternal pcre reg .grep regex name true false maxMatches

-- The arguments of this and other functions that are numbers or booleans are given by their values.
def fnCallFilter (regex name : CString) (do_regex invert : Bool) (max : Int) :
    Outcome FnCallResult :=
  ctx.filterInternal pcre reg .filter regex name do_regex invert max

-- The argument `fn` is one of the names `every`, `some` and `none`.
def fnCallEverySomeNone (fn : FilterFn) (regex name : CString) : Outcome FnCallResult :=
  ctx.filterInternal pcre reg fn regex name true false maxMatches

def fnCallSublist (name : CString) (head : Bool) (max : Int) : Outcome FnCallResult := do
  match ← ctx.getListReferenceArgument reg name with
  | none   => return .failure
  | some l => return .success (.list (cfNullValue :: sublist head max l))

def fnCallSetop (fn : SetopFn) (name_a name_b : CString) : Outcome FnCallResult := do
  match ← ctx.getListReferenceArgument reg name_a with
  | none   => return .failure
  | some a =>
    match ← ctx.getListReferenceArgument reg name_b with
    | none   => return .failure
    | some b =>
      return .success (.list (a.foldl (setopStep fn b) [cfNullValue]))

def fnCallLength (name : CString) : Outcome FnCallResult := do
  match ← ctx.getListReferenceArgument reg name with
  | none   => return .failure
  | some l =>
    let null_seen := l.any (· = cfNullValue)
    let count     := if l.length = 1 ∧ null_seen then 0 else l.length
    return .success (.scalar (printInt count))

def fnCallUnique (name : CString) : Outcome FnCallResult := do
  match ← ctx.getListReferenceArgument reg name with
  | none   => return .failure
  | some l => return .success (.list (l.foldl rlistAppendScalarIdemp [cfNullValue]))

def fnCallNth (name : CString) (offset : Int) : Outcome FnCallResult := do
  match ← ctx.getListReferenceArgument reg name with
  | none   => return .failure
  | some l => return scalarResult (nthCell offset l).head?

def fnCallJoin (join name : CString) : Outcome FnCallResult := do
  let ref ← varRefParse name
  match ← ctx.evalContextVariableGet reg ref with
  | some (.list l, _) => return .success (.scalar (joinItems join l))
  | _                 => return .failure

end EvalContext
end CfEngine
