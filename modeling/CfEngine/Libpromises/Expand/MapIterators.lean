import CfEngine.Libpromises.EnvContext

namespace CfEngine

def rlistAppendScalarIdemp (start : List CString) (scalar : CString) : List CString :=
  if scalar ∈ start then start else start ++ [scalar]

def rlistPrependScalarIdemp (start : List CString) (scalar : CString) : List CString :=
  if scalar ∈ start then start else scalar :: start

-- Every item is written to a buffer of `CF_EXPANDSIZE` bytes.
def rlistConcatInto (dest src : List CString) (extension : CString) : List CString :=
  match src with
  | [] => rlistAppendScalarIdemp dest extension
  | _  => src.foldl (fun dest it =>
      rlistAppendScalarIdemp dest ((it ++ extension).take (cfExpandSize - 1))) dest

def replaceFirst (c d : Char) : CString → CString
  | []     => []
  | e :: s => if e = c then d :: s else e :: replaceFirst c d s

-- What `ExpandAndMapIteratorsFromScalar` works on: `string` is the text it was given, which it writes
-- to, and the list `full` is absent if the argument `full_expansion` is `NULL`.
structure MapState where
  string  : CString
  lists   : List CString
  scalars : List CString
  full    : Option (List CString)

namespace MapState

def concat (st : MapState) (v : CString) : MapState :=
  { st with full := st.full.map (rlistConcatInto [] · v) }

end MapState

section

variable (ctx : EvalContext) (reg : ScopeRegistry) (scopeid : Option CString)

-- The loop over the expansions of an inner variable, which also counts those that exist and collects
-- the list that replaces `full`.
def mapInnerExpansions (level : Nat) (full : Option (List CString)) :
    List CString → (lists scalars tmp : List CString) → (success : Nat) →
    Outcome (List CString × List CString × List CString × Nat)
  | [], lists, scalars, tmp, success             => some (lists, scalars, tmp, success)
  | item :: exps, lists, scalars, tmp, success => do
    let inner_ref ← varRefParseFromScope item scopeid
    let mangled   := if isQualifiedVariable item then varRefMangle inner_ref else item
    match ← ctx.evalContextVariableGet reg inner_ref with
    | none                 => mapInnerExpansions level full exps lists scalars tmp success
    | some (.list l, _)    =>
      let lists :=
        if level > 0 then rlistPrependScalarIdemp lists mangled
        else rlistAppendScalarIdemp lists mangled
      let tmp := full.elim tmp fun full => l.foldl (rlistConcatInto · full ·) tmp
      mapInnerExpansions level full exps lists scalars tmp (success + 1)
    | some (.scalar s, _)  =>
      let scalars := rlistAppendScalarIdemp scalars mangled
      let tmp     := full.elim tmp (rlistConcatInto tmp · s)
      mapInnerExpansions level full exps lists scalars tmp (success + 1)

-- A reference to a variable of another bundle is mapped to its name in the scope `this`.
def mapQualified (v : CString) (ref : VarRef) (success : Nat) (substring : CString) :
    Outcome CString :=
  if success ≠ 0 ∧ isQualifiedVariable v then do
    let scope ← ref.scope
    if scope = scopeThisName then
      return substring
    else
      let substring := replaceFirst '.' '#' substring
      return if ':' ∈ v then replaceFirst ':' '*' substring else substring
  else
    some substring

mutual

-- The argument `fuel` bounds the depth of the recursion together with the rounds of the loop. Both
-- work on ever shorter parts of the text.
def expandAndMapIteratorsFromScalar (fuel level : Nat) (st : MapState) (length : Nat) :
    Outcome MapState :=
  match fuel with
  | 0        => none
  | fuel + 1 =>
    if length ≥ cfBufSize then
      none
    else
      mapIteratorsLoop fuel level (st.string.take length) 0 st

-- The loop at the position `off` of the copy in `buffer`, where `sp` is the rest of the copy.
def mapIteratorsLoop (fuel level : Nat) (sp : CString) (off : Nat) (st : MapState) :
    Outcome MapState :=
  match fuel with
  | 0        => none
  | fuel + 1 =>
    if sp = [] then
      some st
    else
      let v   := sp.takeWhile (· ≠ '$')
      let st  := st.concat v
      let sp  := sp.drop v.length
      let off := off + v.length
      match sp, extractInnerCf3VarString sp with
      | [], _           => some st
      | _ :: sp, none   => mapIteratorsLoop fuel level sp (off + 1) st
      | _ :: sp, some v => do
        let ref   ← varRefParseFromScope v scopeid
        let inner ← expandAndMapIteratorsFromScalar fuel (level + 1)
          { st with string := st.string.drop (off + 2), full := some [] } v.length
        let (lists, scalars, tmp, success) ←
          mapInnerExpansions ctx reg scopeid level st.full (inner.full.getD [])
            inner.lists inner.scalars [] 0
        let substring ← mapQualified v ref success inner.string
        mapIteratorsLoop fuel level (sp.drop (v.length + 2)) (off + v.length + 3)
          { string := st.string.take (off + 2) ++ substring, lists, scalars
            full := st.full.map fun _ => tmp }

end

def mapIteratorsFromScalar (st : MapState) : Outcome MapState :=
  expandAndMapIteratorsFromScalar ctx reg scopeid (2 * st.string.length + 2) 0
    { st with full := none } st.string.length

-- Yields the value along with the variables that occur in it: the text of the value is written to.
def mapIteratorsFromRval (lists scalars : List CString) :
    Rval → Outcome (Rval × List CString × List CString)
  | .scalar s => do
    let st ← mapIteratorsFromScalar ctx reg scopeid { string := s, lists, scalars, full := none }
    return (.scalar st.string, st.lists, st.scalars)
  | .list l   => do
    let (l, lists, scalars) ← go lists scalars l
    return (.list l, lists, scalars)
where
  go (lists scalars : List CString) :
      List CString → Outcome (List CString × List CString × List CString)
    | []     => some ([], lists, scalars)
    | s :: l => do
      let st ← mapIteratorsFromScalar ctx reg scopeid { string := s, lists, scalars, full := none }
      let (l, lists, scalars) ← go st.lists st.scalars l
      return (st.string :: l, lists, scalars)

end
end CfEngine
