import OperatorBundle.Number.Double

/-!
Document trees: what a YAML document says, without its layout. Mappings keep the order of their
entries, and any tree may be a key. The accessors look through tags, since a tag names a node's
kind and does not change its content.
-/

namespace OperatorBundle

open OperatorBundle.Number

/-- A document tree. A tag is held without its leading exclamation mark. -/
inductive Tree
  | null
  | bool (value : Bool)
  | int (value : Int)
  | float (value : Double)
  | text (value : String)
  | sequence (items : List Tree)
  | mapping (entries : List (Tree × Tree))
  | tagged (tag : String) (content : Tree)
  deriving Inhabited

/-- A key and its value. -/
abbrev Entry := Tree × Tree

namespace Tree

/-- A tag text without its leading exclamation mark; the mark alone is a tag. -/
def bareTag (tag : String) : String :=
  match tag.toList with
  | '!' :: c :: rest => String.ofList (c :: rest)
  | _ => tag

/-- The node below all tags. -/
def untagged : Tree → Tree
  | .tagged _ content => content.untagged
  | tree => tree

/-- The entries of a mapping. -/
def entries? : Tree → Option (List Entry)
  | .tagged _ content => content.entries?
  | .mapping entries => some entries
  | _ => none

/-- The items of a sequence. -/
def items? : Tree → Option (List Tree)
  | .tagged _ content => content.items?
  | .sequence items => some items
  | _ => none

/-- The text of a string. -/
def text? : Tree → Option String
  | .tagged _ content => content.text?
  | .text value => some value
  | _ => none

/-- Whether a tree is the string `name`, as a key: a tagged string is another key. -/
def isName (name : String) : Tree → Bool
  | .text value => value = name
  | _ => false

/-- The value under a string key. -/
def lookup? (name : String) (entries : List Entry) : Option Tree :=
  (entries.find? fun e => e.1.isName name).map (·.2)

/-- The value that a mapping has under a string key. -/
def field? (tree : Tree) (name : String) : Option Tree :=
  tree.entries?.bind (lookup? name)

/-- Entries with a value put under a string key: in place, or last if the key is new. -/
def insert (name : String) (value : Tree) : List Entry → List Entry
  | [] => [(.text name, value)]
  | entry :: more =>
    if entry.1.isName name then (entry.1, value) :: more else entry :: insert name value more

/-- Entries without a string key. -/
def erase (name : String) (entries : List Entry) : List Entry :=
  entries.filter fun e => !e.1.isName name

@[simp] theorem isName_text (name value : String) :
    (Tree.text value).isName name = decide (value = name) := rfl

theorem isName_iff {name : String} {tree : Tree} : tree.isName name ↔ tree = .text name := by
  cases tree <;> simp [isName]

@[simp] theorem lookup?_insert_self (name : String) (value : Tree) (entries : List Entry) :
    lookup? name (insert name value entries) = some value := by
  induction entries with
  | nil => simp [insert, lookup?]
  | cons entry more ih =>
    by_cases h : entry.1.isName name
    · simp [insert, lookup?, h]
    · simpa [insert, lookup?, h] using ih

@[simp] theorem lookup?_erase_self (name : String) (entries : List Entry) :
    lookup? name (erase name entries) = none := by
  simp [lookup?, erase]

end Tree

end OperatorBundle
