import OperatorBundle.Tree.Basic

/-!
Equality of documents. Two mappings are equal when they hold equal values under equal keys,
whatever their order; numbers of different kinds differ, and a not-a-number equals itself.
-/

namespace OperatorBundle.Tree

mutual
/-- Whether two trees are the same document. -/
def same : Tree → Tree → Bool
  | .null, .null => true
  | .bool a, .bool b => a = b
  | .int a, .int b => a = b
  | .float a, .float b => a.same b
  | .text a, .text b => a = b
  | .sequence a, .sequence b => sameItems a b
  -- no mapping has two equal keys, so with as many entries one direction is enough
  | .mapping a, .mapping b => a.length = b.length && sameEntries a b
  | .tagged s a, .tagged t b => s = t && a.same b
  | _, _ => false

/-- Whether two lists of trees agree position by position. -/
def sameItems : List Tree → List Tree → Bool
  | [], [] => true
  | a :: as, b :: bs => a.same b && sameItems as bs
  | _, _ => false

/-- Whether each entry of the first list has an equal value in the second. -/
def sameEntries : List (Tree × Tree) → List (Tree × Tree) → Bool
  | [], _ => true
  | (key, value) :: more, others =>
    (match others.find? fun e => key.same e.1 with
      | some (_, other) => value.same other
      | none => false) && sameEntries more others
end

/-- The value under a key. -/
def lookupSame? (key : Tree) (entries : List Entry) : Option Tree :=
  (entries.find? fun e => key.same e.1).map (·.2)

/-- Entries with a value put under a key: in place, or last if the key is new. -/
def insertSame (key value : Tree) : List Entry → List Entry
  | [] => [(key, value)]
  | entry :: more =>
    if key.same entry.1 then (entry.1, value) :: more else entry :: insertSame key value more

end OperatorBundle.Tree
