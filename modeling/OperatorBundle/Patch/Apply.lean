import OperatorBundle.Patch.Basic
import OperatorBundle.Policy
import OperatorBundle.Report

/-!
Running a patch. Operations run in order, each on the tree that the ones before it left. A run ends
early when an operation meets a node of the wrong kind, has no target, or misses it under the policy
that forbids this; the tree is then the one before that operation.
-/

namespace OperatorBundle

open OperatorBundle.Text

/-- The kind of node that an action needs. -/
inductive NodeKind
  | mapping
  | sequence
  | string
  deriving DecidableEq, Repr

/-- The name of a kind. -/
def NodeKind.name : NodeKind → String
  | .mapping => "mapping"
  | .sequence => "sequence"
  | .string => "string"

/-- Why an operation changes nothing: its target is missing, a node is of the wrong kind, or its
target is the root. -/
inductive Failure
  | missing
  | mismatch (expected : NodeKind)
  | noTarget
  deriving DecidableEq, Repr

/-- Why a run ends early. -/
inductive PatchError
  | locatorMiss (path : String)
  | typeMismatch (path : String) (expected : NodeKind)
  | emptyLocator
  deriving DecidableEq, Repr

/-- The error in words. -/
def PatchError.message : PatchError → String
  | .locatorMiss path => "Locator did not resolve: " ++ path
  | .typeMismatch path expected =>
    "Type mismatch at " ++ path ++ ": expected " ++ expected.name
  | .emptyLocator => "Patch operation has an empty locator"

namespace Tree

/-- The entries of a mapping are changed, below its tags. -/
def changeEntries (change : List Entry → List Entry) : Tree → Except Failure Tree
  | .tagged tag content => (changeEntries change content).map (.tagged tag)
  | .mapping entries => .ok (.mapping (change entries))
  | _ => .error (.mismatch .mapping)

/-- The items of a sequence are changed, below its tags. -/
def changeItems (change : List Tree → List Tree) : Tree → Except Failure Tree
  | .tagged tag content => (changeItems change content).map (.tagged tag)
  | .sequence items => .ok (.sequence (change items))
  | _ => .error (.mismatch .sequence)

/-- A string with every occurrence of a text replaced. The new string has no tag. -/
def replaceText (old new : String) (tree : Tree) : Except Failure Tree :=
  match tree.text? with
  | some found => .ok (.text (String.ofList (replaceAll old.toList new.toList found.toList)))
  | none => .error (.mismatch .string)

/-- An item with its value field set, if its key field names one of the values. -/
def withNamedValue (keyField valueField : String) (values : List (String × String))
    (item : Tree) : Tree :=
  match ((item.field? keyField).bind text?).bind fun name => values.lookup name with
  | some value =>
    match item.changeEntries (insert valueField (.text value)) with
    | .ok changed => changed
    | .error _ => item
  | none => item

end Tree

namespace Action

/-- What an action makes of the parent of its target, the target being one segment below. -/
def onParent (action : Action) (last : Segment) (parent : Tree) : Except Failure Tree :=
  match action, last with
  | .set value, .key name => parent.changeEntries (Tree.insert name value)
  | .set value, last => parent.changeChild (fun _ => .ok value) .missing last
  | .remove, .key name => parent.changeEntries (Tree.erase name)
  -- an item that is not there is removed without a fault, as a key is
  | .remove, .index position => parent.changeItems fun items => items.eraseIdx position
  | .remove, .find selector => parent.changeItems fun items => items.eraseP selector.accepts
  | .replace old new, last => parent.changeChild (Tree.replaceText old new) .missing last
  | .setEntries keyField valueField values, last =>
    parent.changeChild
      (Tree.changeItems fun items => items.map (Tree.withNamedValue keyField valueField values))
      .missing last

end Action

namespace Operation

/-- The document after the operation's action. -/
def act (operation : Operation) (root : Tree) : Except Failure Tree :=
  match operation.target.splitLast? with
  | some (parent, last) => root.change (operation.action.onParent last) .missing parent
  | none => .error .noTarget

/-- The record of the operation with an outcome. -/
def record (operation : Operation) (outcome : Outcome) : Record :=
  ⟨operation.target.text, operation.action.name, outcome⟩

/-- The document after the operation and its record, under a policy. -/
def run (policy : Policy) (operation : Operation) (root : Tree) :
    Except PatchError (Tree × Record) :=
  let path := operation.target.text
  if operation.allowed root then
    match operation.act root with
    | .ok changed => .ok (changed, operation.record .applied)
    | .error .missing =>
      match policy with
      | .ignore => .ok (root, operation.record .missed)
      | .fail => .error (.locatorMiss path)
    | .error (.mismatch expected) => .error (.typeMismatch path expected)
    | .error .noTarget => .error .emptyLocator
  else .ok (root, operation.record .skipped)

end Operation

/-- What a run leaves: a tree, and the report or the error that ended the run. -/
structure PatchRun where
  tree : Tree
  result : Except PatchError Report

/-- The run of operations on a document, after those that a report tells of. -/
def runAfter (policy : Policy) (report : Report) : List Operation → Tree → PatchRun
  | [], tree => ⟨tree, .ok report⟩
  | operation :: more, tree =>
    match operation.run policy tree with
    | .ok (changed, record) => runAfter policy (report.push record) more changed
    | .error e => ⟨tree, .error e⟩

/-- The run of operations on a document. -/
def applyPatch (policy : Policy) (operations : List Operation) (tree : Tree) : PatchRun :=
  runAfter policy .empty operations tree

end OperatorBundle
