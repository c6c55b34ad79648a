import CfEngine.Libutils.Json
import CfEngine.Libpromises.Policy

namespace CfEngine
namespace Policy

open JsonElement (jsonStringCreate jsonIntegerCreate)

-- What ends an export: a string that is `NULL`, or a value of a type that is not expected.
inductive ExportError
  | nullString
  | programmingError
  deriving DecidableEq

-- The text counts double against the size of the buffer, and a quote four times.
def escapeQuotesFrom (outSz i : Nat) : CString → CString
  | []     => []
  | c :: s =>
    if i < outSz - 2 then
      if c = '\'' ∨ c = '"' then '\\' :: c :: escapeQuotesFrom outSz (i + 4) s
      else c :: escapeQuotesFrom outSz (i + 2) s
    else []

def escapeQuotes (s : CString) (outSz : Nat) : CString :=
  escapeQuotesFrom outSz 0 s

def stringProperty (key : String) (value : CString) : CString × JsonElement :=
  (key.toList, jsonStringCreate value)

def lineProperty (line : Nat) : CString × JsonElement :=
  ("line".toList, jsonIntegerCreate <| .ofNat line)

mutual

def attributeValueToJson : Rval → Bool → Except ExportError JsonElement
  | .scalar item, symbolicReference =>
    .ok <| .object [
      stringProperty "type" <| if symbolicReference then "symbol".toList else "string".toList,
      stringProperty "value" <| escapeQuotes item cfBufSize]
  | .list items, _ => do
    let list ← attributeValuesToJson items
    .ok <| .object [stringProperty "type" "list".toList, ("value".toList, .array list)]
  | .fnCall name args, _ => do
    let arguments ← attributeValuesToJson args
    .ok <| .object [
      stringProperty "type" "functionCall".toList,
      stringProperty "name" name,
      ("arguments".toList, .array arguments)]
  | .nopromisee, _ => .error .programmingError

-- The items of a list and the arguments of a call.
def attributeValuesToJson : List Rval → Except ExportError (List JsonElement)
  | []      => .ok []
  | r :: rs => do
    let json ← attributeValueToJson r false
    let jsons ← attributeValuesToJson rs
    .ok <| json :: jsons

end

def createContextAsJson (name : Option CString) (childrenName : String)
    (children : List JsonElement) : Except ExportError JsonElement :=
  match name with
  | none      => .error .nullString
  | some name => .ok <| .object [stringProperty "name" name, (childrenName.toList, .array children)]

-- The loop that puts the elements of a sequence into one context as long as their classes are those
-- of the current context.
def contextsToJson {α : Type} (childrenName : String) (classes : α → CString)
    (toJson : α → Except ExportError JsonElement) (contexts children : List JsonElement)
    (currentContext : Option CString) : List α → Except ExportError (List JsonElement)
  | []      => do
    let context ← createContextAsJson currentContext childrenName children
    .ok <| contexts ++ [context]
  | x :: xs => do
    let currentContext := currentContext.getD (classes x)
    if CString.strcmp currentContext (classes x) ≠ 0 then
      let context ← createContextAsJson currentContext childrenName children
      let child ← toJson x
      contextsToJson childrenName classes toJson (contexts ++ [context]) [child] (classes x) xs
    else
      let child ← toJson x
      contextsToJson childrenName classes toJson contexts (children ++ [child]) currentContext xs

def constraintToJson (cp : Constraint) (symbolicReference : Bool) :
    Except ExportError JsonElement := do
  let rval ← attributeValueToJson cp.rval symbolicReference
  .ok <| .object [lineProperty cp.line, stringProperty "lval" cp.lval, ("rval".toList, rval)]

def bodyContextsToJson (constraints : List Constraint) : Except ExportError (List JsonElement) :=
  contextsToJson "attributes" Constraint.classes (constraintToJson · false) [] [] anyClass
    constraints

def rlistScalarValue : Rval → Except ExportError CString
  | .scalar item => .ok item
  | _            => .error .programmingError

def promiseeToJson : Rval → Except ExportError (List (CString × JsonElement))
  | .scalar item => .ok [stringProperty "promisee" item]
  | .list items  => do
    let promiseeList ← items.mapM rlistScalarValue
    .ok [("promisee".toList, .array <| promiseeList.map jsonStringCreate)]
  | _            => .ok []

def promiseToJson (pp : Promise) : Except ExportError JsonElement := do
  let attributes ← pp.conlist.mapM fun cp => constraintToJson cp cp.referencesBody
  let promisee ← promiseeToJson pp.promisee
  .ok <| .object <| [lineProperty pp.line, stringProperty "promiser" pp.promiser] ++ promisee ++
    [("attributes".toList, .array attributes)]

def bundleContextsToJson (promises : List Promise) : Except ExportError (List JsonElement) :=
  contextsToJson "promises" Promise.classes promiseToJson [] [] none promises

def promiseTypeToJson (sp : PromiseType) : Except ExportError JsonElement := do
  let contexts ← bundleContextsToJson sp.promises
  .ok <| .object [
    lineProperty sp.line,
    stringProperty "name" sp.name,
    ("contexts".toList, .array contexts)]

def sourcePathToJson (sourcePath : Option CString) : List (CString × JsonElement) :=
  sourcePath.toList.map <| stringProperty "sourcePath"

def bundleToJson (bundle : Bundle) : Except ExportError JsonElement := do
  let promiseTypes ← bundle.promiseTypes.val.mapM promiseTypeToJson
  .ok <| .object <| sourcePathToJson bundle.sourcePath ++ [
    lineProperty bundle.line,
    stringProperty "namespace" bundle.ns,
    stringProperty "name" bundle.name,
    stringProperty "bundleType" bundle.type,
    ("arguments".toList, .array <| bundle.args.map jsonStringCreate),
    ("promiseTypes".toList, .array promiseTypes)]

def bodyToJson (body : Body) : Except ExportError JsonElement := do
  let contexts ← bodyContextsToJson body.conlist
  .ok <| .object <| sourcePathToJson body.sourcePath ++ [
    lineProperty body.line,
    stringProperty "namespace" body.ns,
    stringProperty "name" body.name,
    stringProperty "bodyType" body.type,
    ("arguments".toList, .array <| body.args.map jsonStringCreate),
    ("contexts".toList, .array contexts)]

end Policy

def policyToJson (policy : Policy) : Except Policy.ExportError JsonElement := do
  let bundles ← policy.bundles.mapM Policy.bundleToJson
  let bodies ← policy.bodies.mapM Policy.bodyToJson
  .ok <| .object [("bundles".toList, .array bundles), ("bodies".toList, .array bodies)]

namespace JsonElement

-- The property of an object with a name. There is no result if the element is not an object.
def lookup (key : String) : JsonElement → Option (Option JsonElement)
  | object children => some <| (children.find? (·.1 = key.toList)).map Prod.snd
  | _               => none

-- The inner result is `none` where the function returns `NULL`.
def jsonObjectGetAsString (json : JsonElement) (key : String) : Option (Option CString) := do
  match ← json.lookup key with
  | none                            => some none
  | some (primitive .string value) => some <| some value
  | some _                          => none

def jsonObjectGetAsArray (json : JsonElement) (key : String) : Option (Option (List JsonElement)) := do
  match ← json.lookup key with
  | none                  => some none
  | some (array children) => some <| some children
  | some _                => none

def jsonObjectGetAsObject (json : JsonElement) (key : String) : Option (Option JsonElement) := do
  match ← json.lookup key with
  | none                      => some none
  | some (object children) => some <| some <| object children
  | some _                    => none

def jsonGetAsString : JsonElement → Option CString
  | primitive .string value => some value
  | _                       => none

-- A property that is used without a test for `NULL`.
def getString (json : JsonElement) (key : String) : Option CString :=
  (json.jsonObjectGetAsString key).join

def getArray (json : JsonElement) (key : String) : Option (List JsonElement) :=
  (json.jsonObjectGetAsArray key).join

def getObject (json : JsonElement) (key : String) : Option JsonElement :=
  (json.jsonObjectGetAsObject key).join

end JsonElement

namespace Policy

mutual

def rvalFromJson : JsonElement → Option Rval
  | .object children => do
    let json := JsonElement.object children
    let type ← json.getString "type"
    if type = "string".toList ∨ type = "symbol".toList then
      let value ← json.getString "value"
      some <| .scalar value
    else if type = "list".toList then
      let items ← itemsFromJson "value".toList children
      some <| .list items
    else if type = "functionCall".toList then
      let name ← json.getString "name"
      let args ← itemsFromJson "arguments".toList children
      some <| .fnCall name args
    else none
  | .array _ => none
  | .primitive .. => none

-- The items are those of the array that is the property with a name.
def itemsFromJson (key : CString) : List (CString × JsonElement) → Option (List Rval)
  | []                                 => none
  | (propertyName, child) :: children =>
    if propertyName = key then
      match child with
      | .array items  => rvalsFromJson [] items
      | .object _     => none
      | .primitive .. => none
    else itemsFromJson key children

def rvalsFromJson (start : List Rval) : List JsonElement → Option (List Rval)
  | []            => some start
  | item :: items => do
    let rval ← rvalFromJson item
    rvalsFromJson (rlistAppend start rval) items

end

def constraintFromJson (json : JsonElement) (context : CString) : Option Constraint := do
  let lval ← json.getString "lval"
  let jsonRval ← json.getObject "rval"
  let type ← jsonRval.getString "type"
  let rval ← rvalFromJson jsonRval
  some <| constraintNew lval rval context (type = "symbol".toList)

def promiseFromJson (json : JsonElement) (context : CString) : Option Promise := do
  let promiser ← json.getString "promiser"
  let attributes ← json.getArray "attributes"
  let conlist ← attributes.mapM (constraintFromJson · context)
  some <| promiseNew promiser .nopromisee context conlist

-- The children of the contexts in a row. A context without a name is not followed further.
def contextsFromJson {α : Type} (childrenName : String)
    (fromJson : JsonElement → CString → Option α) (contexts : List JsonElement) :
    Option (List α) := do
  let children ← contexts.mapM fun context => do
    let name ← context.getString "name"
    let children ← context.getArray childrenName
    children.mapM (fromJson · name)
  some children.flatten

def bundleAppendPromiseTypeJson (types : PromiseTypes) (json : JsonElement) :
    Option PromiseTypes := do
  let name ← json.getString "name"
  let contexts ← json.getArray "contexts"
  let promises ← contextsFromJson "promises" promiseFromJson contexts
  some <| promiseTypeAppendPromises (bundleAppendPromiseType types name) name promises

def argsFromJson (json : JsonElement) : Option (List CString) := do
  let args ← json.getArray "arguments"
  args.mapM (·.jsonGetAsString)

def bundleFromJson (json : JsonElement) : Option Bundle := do
  let ns ← json.getString "namespace"
  let name ← json.getString "name"
  let type ← json.getString "bundleType"
  let sourcePath ← json.jsonObjectGetAsString "sourcePath"
  let args ← argsFromJson json
  let jsonPromiseTypes ← json.getArray "promiseTypes"
  let promiseTypes ← jsonPromiseTypes.foldlM bundleAppendPromiseTypeJson ⟨[], .nil⟩
  some { type, name, ns, args, promiseTypes, sourcePath, line := 0 }

def bodyFromJson (json : JsonElement) : Option Body := do
  let ns ← json.getString "namespace"
  let name ← json.getString "name"
  let type ← json.getString "bodyType"
  let sourcePath ← json.jsonObjectGetAsString "sourcePath"
  let args ← argsFromJson json
  let contexts ← json.getArray "contexts"
  let conlist ← contextsFromJson "attributes" constraintFromJson contexts
  some { type, name, ns, args, conlist, sourcePath, line := 0 }

end Policy

def policyFromJson (json : JsonElement) : Option Policy := do
  let bundles ← json.getArray "bundles"
  let bodies ← json.getArray "bodies"
  some { bundles := ← bundles.mapM Policy.bundleFromJson, bodies := ← bodies.mapM Policy.bodyFromJson }

end CfEngine
