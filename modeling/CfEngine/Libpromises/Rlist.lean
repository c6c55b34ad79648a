import CfEngine.Libutils.Strings

namespace CfEngine

inductive RvalType
  | scalar
  | list
  deriving DecidableEq

-- The values a variable can hold. The items of a list are scalars: every function that handles the
-- list of a variable reads each `rp->item` as a string.
inductive Rval
  | scalar (item : CString)
  | list (item : List CString)
  deriving DecidableEq

inductive DataType
  | string
  | int
  | real
  | stringList
  | intList
  | realList
  | option
  | optionList
  | body
  | bundle
  | context
  | contextList
  | intRange
  | realRange
  | counter
  | none
  deriving DecidableEq

namespace Rval

def type : Rval → RvalType
  | scalar _ => .scalar
  | list _   => .list

-- An empty `Rlist` is the `NULL` pointer.
def HasItem : Rval → Prop
  | scalar _ => True
  | list l   => l ≠ []

instance : DecidablePred HasItem
  | scalar _ => inferInstanceAs (Decidable True)
  | list l   => inferInstanceAs (Decidable (l ≠ []))

end Rval
end CfEngine
