import CfEngine.Libutils.Strings

namespace CfEngine

open Libutils

def cfNs : Char := ':'

structure VarRef where
  ns      : Option CString
  scope   : Option CString
  lval    : CString
  indices : List CString
  deriving DecidableEq

-- The pointer that `strchr` yields is given by the text before and the text after the character.
def strchr (s : CString) (c : Char) : Option (CString × CString) :=
  match s with
  | []     => none
  | d :: s => if d = c then some ([], s) else (strchr s c).map fun (l, r) => (d :: l, r)

def indexCount (var_string : CString) : Nat :=
  var_string.count '['

-- The loop over the text after the first `[`. An entry of `indices` that is never assigned is `none`.
def parseIndices (cur_index : Nat) (buf : CString) (indices : List (Option CString)) :
    CString → List (Option CString)
  | []       => indices
  | '[' :: s => parseIndices (cur_index + 1) buf indices s
  | ']' :: s => parseIndices cur_index [] (indices.set cur_index buf) s
  | c :: s   => parseIndices cur_index (bufferAppended buf [c]) indices s

-- The outcome `none` stands for undefined behaviour: an index that was not assigned is freed along
-- with the reference.
def varRefParseFromNamespaceAndScope (qualified_name : CString) (ns' scope' : Option CString)
    (ns_separator scope_separator : Char) : Option VarRef := do
  let (name, indices) :=
    match strchr qualified_name '[' with
    | some (name, rest) =>
      (name, parseIndices 0 [] (List.replicate (indexCount ('[' :: rest)) none) rest)
    | none              => (qualified_name, [])
  let (ns, scope_start) :=
    match strchr name ns_separator with
    | some (ns, rest) => (some ns, rest)
    | none            => (none, name)
  let (scope, lval) :=
    match strchr scope_start scope_separator with
    | some (scope, rest) => (some scope, rest)
    | none               => (none, scope_start)
  let indices ← indices.mapM id
  return { ns := ns <|> ns', scope := scope <|> scope', lval, indices }

def varRefParse (var_ref_string : CString) : Option VarRef :=
  varRefParseFromNamespaceAndScope var_ref_string none none cfNs '.'

def varRefParseFromScope (var_ref_string : CString) (scope : Option CString) : Option VarRef :=
  match scope with
  | none       => varRefParse var_ref_string
  | some scope =>
    match strchr scope cfNs with
    | some (ns, rest) => varRefParseFromNamespaceAndScope var_ref_string ns rest cfNs '.'
    | none            => varRefParseFromNamespaceAndScope var_ref_string none scope cfNs '.'

-- The strings that are appended to the buffer, in their order.
def varRefPieces (ref : VarRef) (qualified : Bool) : List CString :=
  let ns    := if qualified then (ref.ns.map fun ns => [ns, [':']]).getD [] else []
  let scope := if qualified then (ref.scope.map fun scope => [scope, ['.']]).getD [] else []
  ns ++ scope ++ [ref.lval] ++ ref.indices.flatMap fun i => [['['], i, [']']]

def varRefToString (ref : VarRef) (qualified : Bool) : CString :=
  (varRefPieces ref qualified).foldl bufferAppended []

def varRefMangle (ref : VarRef) : CString :=
  let suffix := varRefToString ref false
  match ref.scope, ref.ns with
  | none, _            => suffix
  | some scope, some ns => ns ++ ['*'] ++ scope ++ ['#'] ++ suffix
  | some scope, none    => scope ++ ['#'] ++ suffix

def varRefDeMangle (mangled_var_ref : CString) : Option VarRef :=
  varRefParseFromNamespaceAndScope mangled_var_ref none none '*' '#'

def varRefIsQualified (ref : VarRef) : Bool :=
  ref.scope.isSome

end CfEngine
