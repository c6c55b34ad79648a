import Mathlib.Logic.Function.Basic
import CfEngine.Libutils.Strings

namespace CfEngine

open Function (update)

-- A database maps keys to what has been written under them.
abbrev DB (β : Type) := CString → Option β

namespace DB

variable {β : Type} {key key' : CString} {value : β}

def empty : DB β :=
  fun _ => none

def readDB (db : DB β) (key : CString) : Option β :=
  db key

def hasKeyDB (db : DB β) (key : CString) : Bool :=
  (db key).isSome

def writeDB (db : DB β) (key : CString) (value : β) : DB β :=
  update db key (some value)

def deleteDB (db : DB β) (key : CString) : DB β :=
  update db key none

variable (db : DB β)

@[simp]
theorem writeDB_self : db.writeDB key value key = some value :=
  Function.update_self ..

@[simp]
theorem writeDB_of_ne (h : key' ≠ key) : db.writeDB key value key' = db key' :=
  Function.update_of_ne h ..

@[simp]
theorem deleteDB_self : db.deleteDB key key = none :=
  Function.update_self ..

@[simp]
theorem deleteDB_of_ne (h : key' ≠ key) : db.deleteDB key key' = db key' :=
  Function.update_of_ne h ..

end DB
end CfEngine
