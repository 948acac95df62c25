import OperatorBundle.Locator.Resolve

/-!
Patch operations: what to do, where, and on what condition.
-/

namespace OperatorBundle

open OperatorBundle.Text

/-- What an operation does at its target. -/
inductive Action
  /-- The value is put there, over what may stand there. -/
  | set (value : Tree)
  /-- The entry or item is dropped; if there is none, nothing happens. -/
  | remove
  /-- Every occurrence of a text in a string gives way to another. -/
  | replace (old new : String)
  /-- In each item of a sequence whose key field names one of the values, the value field is set. -/
  | setEntries (keyField valueField : String) (values : List (String × String))

/-- The name of an action in reports. -/
def Action.name : Action → String
  | .set _ => "set"
  | .remove => "remove"
  | .replace _ _ => "replace"
  | .setEntries _ _ _ => "set_entries"

/-- A condition on running an operation: a decision made before, or that its target is there or
not. -/
inductive Guard
  | when (condition : Bool)
  | ifAbsent
  | ifPresent
  deriving DecidableEq, Repr

/-- Whether a guard lets an operation run on a document. -/
def Guard.allows (target : Locator) (root : Tree) : Guard → Bool
  | .when condition => condition
  | .ifAbsent => (root.resolve? target.segments).isNone
  | .ifPresent => (root.resolve? target.segments).isSome

/-- One step of a patch. -/
structure Operation where
  target : Locator
  action : Action
  guard : Option Guard

namespace Operation

/-- A value is put at a place. -/
def set (target : Locator) (value : Tree) : Operation := ⟨target, .set value, none⟩

/-- A string is put at a place. -/
def setText (target : Locator) (value : String) : Operation := set target (.text value)

/-- A place is cleared. -/
def remove (target : Locator) : Operation := ⟨target, .remove, none⟩

/-- A text is replaced in the string at a place. -/
def replace (target : Locator) (old new : String) : Operation := ⟨target, .replace old new, none⟩

/-- Named items of the sequence at a place get values. -/
def setEntries (target : Locator) (keyField valueField : String)
    (values : List (String × String)) : Operation :=
  ⟨target, .setEntries keyField valueField values, none⟩

/-- Whether the operation runs on a document. -/
def allowed (operation : Operation) (root : Tree) : Bool :=
  operation.guard.all (·.allows operation.target root)

end Operation

end OperatorBundle
