import CfEngine.Libutils.Strings

namespace CfEngine

structure SourceOffset where
  start : Nat
  «end» : Nat
  line  : Nat
  deriving DecidableEq

structure FnCall where
  name : CString
  args : List CString
  deriving DecidableEq

-- The value of a constraint, which is a call where it refers to a body or a bundle.
inductive ConstraintRval
  | scalar (item : CString)
  | list (item : List CString)
  | fnCall (item : FnCall)
  | nopromisee
  deriving DecidableEq

structure Constraint where
  lval : CString
  rval : ConstraintRval
  deriving DecidableEq

structure PolicyBundle where
  ns   : Option CString
  name : Option CString
  deriving DecidableEq

structure Promise where
  parentBundle : Option PolicyBundle
  comment      : Option CString
  promiser     : CString
  conlist      : List Constraint
  offset       : SourceOffset
  deriving DecidableEq

namespace Policy

-- The elements of a policy with the data that is exported. Of an offset that is the line.
inductive Rval
  | scalar (item : CString)
  | list (items : List Rval)
  | fnCall (name : CString) (args : List Rval)
  | nopromisee

structure Constraint where
  lval           : CString
  rval           : Rval
  classes        : CString
  referencesBody : Bool
  line           : Nat

def anyClass : CString := ['a', 'n', 'y']

-- A promise is never without a class context.
structure Promise where
  classes    : CString
  classes_ne : classes ≠ []
  promiser   : CString
  promisee   : Rval
  conlist    : List Constraint
  line       : Nat

structure PromiseType where
  name     : CString
  promises : List Promise
  line     : Nat

-- A bundle has one promise type of a name.
abbrev PromiseTypes := { types : List PromiseType // (types.map PromiseType.name).Nodup }

structure Bundle where
  type         : CString
  name         : CString
  ns           : CString
  args         : List CString
  promiseTypes : PromiseTypes
  sourcePath   : Option CString
  line         : Nat

structure Body where
  type       : CString
  name       : CString
  ns         : CString
  args       : List CString
  conlist    : List Constraint
  sourcePath : Option CString
  line       : Nat

end Policy

structure Policy where
  bundles : List Policy.Bundle
  bodies  : List Policy.Body

namespace Policy

mutual

-- The items of a list are appended one by one, so that no list holds a list that is appended to it.
def rlistAppend (start : List Rval) : Rval → List Rval
  | .scalar item      => start ++ [.scalar item]
  | .list items       => rlistAppendAll start items
  | .fnCall name args => start ++ [.fnCall name args]
  | .nopromisee       => start

def rlistAppendAll (start : List Rval) : List Rval → List Rval
  | []      => start
  | r :: rs => rlistAppendAll (rlistAppend start r) rs

end

def constraintNew (lval : CString) (rval : Rval) (classes : CString) (referencesBody : Bool) :
    Constraint :=
  { lval, rval, classes, referencesBody, line := 0 }

def promiseNew (promiser : CString) (promisee : Rval) (classes : CString)
    (conlist : List Constraint) : Promise :=
  if h : classes ≠ [] then
    { classes, classes_ne := h, promiser, promisee, conlist, line := 0 }
  else
    { classes := anyClass, classes_ne := List.cons_ne_nil _ _, promiser, promisee, conlist, line := 0 }

-- A promise type that exists is used again.
def withPromiseType (types : List PromiseType) (name : CString) : List PromiseType :=
  if types.any fun existing => CString.strcmp existing.name name = 0 then types
  else types ++ [{ name, promises := [], line := 0 }]

theorem withPromiseType_nodup {types : List PromiseType} {name : CString}
    (h : (types.map PromiseType.name).Nodup) :
    ((withPromiseType types name).map PromiseType.name).Nodup := by
  rw [withPromiseType]
  split
  case isTrue       => exact h
  case isFalse hnew =>
    rw [List.map_append, List.nodup_append]
    refine ⟨h, by simp, ?_⟩
    rintro a ha b hb rfl
    cases List.eq_of_mem_singleton hb
    obtain ⟨existing, hmem, rfl⟩ := List.mem_map.mp ha
    exact hnew <| List.any_eq_true.mpr ⟨existing, hmem, by simp [CString.strcmp_eq_zero_iff]⟩

def bundleAppendPromiseType (types : PromiseTypes) (name : CString) : PromiseTypes :=
  ⟨withPromiseType types.val name, withPromiseType_nodup types.property⟩

def withPromises (name : CString) (promises : List Promise) (type : PromiseType) : PromiseType :=
  if type.name = name then { type with promises := type.promises ++ promises } else type

theorem withPromises_name {name : CString} {promises : List Promise} {type : PromiseType} :
    (withPromises name promises type).name = type.name := by
  rw [withPromises]
  split <;> rfl

theorem map_withPromises_nodup {types : List PromiseType} {name : CString} {promises : List Promise}
    (h : (types.map PromiseType.name).Nodup) :
    ((types.map <| withPromises name promises).map PromiseType.name).Nodup := by
  have hname : PromiseType.name ∘ withPromises name promises = PromiseType.name :=
    funext fun _ => withPromises_name
  rwa [List.map_map, hname]

def promiseTypeAppendPromises (types : PromiseTypes) (name : CString) (promises : List Promise) :
    PromiseTypes :=
  ⟨types.val.map <| withPromises name promises, map_withPromises_nodup types.property⟩

end Policy
end CfEngine
