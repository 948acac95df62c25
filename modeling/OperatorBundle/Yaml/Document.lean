import OperatorBundle.Tree.Equal
import OperatorBundle.Yaml.Node.OfTokens
import OperatorBundle.Yaml.Scalar.Kind

/-!
From nodes to trees, and so from a text to the tree it stands for. Aliases are replaced by what they
name, within a budget that keeps the tree from growing out of proportion to the text; collections
nest up to a fixed depth; and no mapping has two equal keys.
-/

namespace OperatorBundle.Yaml

/-- The greatest depth of nested collections. -/
def depthLimit : Nat := 128

/-- How many aliases may be followed for each unit of a document's size. -/
def aliasesPerSize : Nat := 100

/-- The tag that a tree keeps: one that starts with an exclamation mark, which is left off. -/
def localTag? (p : Properties) : Option String :=
  match p.tag with
  | some bytes =>
    if bytes.head? = some '!'.toNat.toUInt8 then
      (String.fromUTF8? ⟨bytes.toArray⟩).map fun tag => Tree.bareTag (Tree.bareTag tag)
    else none
  | none => none

/-- Whether a tag is one of the standard ones. -/
def isStandardTag (name : String) (bytes : List UInt8) : Bool :=
  bytes = asciiBytes ("tag:yaml.org,2002:" ++ name).toList

/-- A scalar that fits its tag, or none. -/
def fitting : Option Tree → Except Fault Tree
  | some tree => .ok tree
  | none => .error .tagMismatch

/-- The tree of a scalar. A standard tag decides how the text is read; with any other tag outside
the local ones the text stays as it is, and so does a text that is not plain. -/
def scalarTree (p : Properties) (text : List Char) (plain : Bool) : Except Fault Tree :=
  let asText := Tree.text (String.ofList text)
  let untagged := if plain then plainTree text else .ok asText
  match p.tag with
  | none => untagged
  | some bytes =>
    if (localTag? p).isSome then untagged
    else if isStandardTag "bool" bytes then fitting ((bool? text).map .bool)
    else if isStandardTag "int" bytes then
      match integer? text with
      | some n => wordInteger n
      | none => .error .tagMismatch
    else if isStandardTag "float" bytes then fitting ((float? text).map .float)
    else if isStandardTag "null" bytes then fitting (if isNull text then some .null else none)
    else if plain && bytes.head? = some '!'.toNat.toUInt8 then untagged
    else .ok asText

/-- The items of a sequence, in order. The number goes through all of them: how many aliases may
still be followed. -/
def builtItems (build : Node → Nat → Except Fault (Tree × Nat)) :
    List Node → Nat → Except Fault (List Tree × Nat)
  | [], left => .ok ([], left)
  | item :: more, left => do
    let (tree, left) ← build item left
    let (trees, left) ← builtItems build more left
    .ok (tree :: trees, left)

/-- The entries of a mapping, in order, after those that stand before them. -/
def builtEntries (build : Node → Nat → Except Fault (Tree × Nat)) :
    List (Node × Node) → List Entry → Nat → Except Fault (List Entry × Nat)
  | [], before, left => .ok (before.reverse, left)
  | (key, value) :: more, before, left => do
    let (key, left) ← build key left
    if before.any fun e => key.same e.1 then .error .duplicateKey
    else
      let (value, left) ← build value left
      builtEntries build more ((key, value) :: before) left

/-- A tree under the tag that it keeps. -/
def underTag (p : Properties) (tree : Tree) : Tree :=
  match localTag? p with
  | some tag => .tagged tag tree
  | none => tree

/-- What an alias stands for; any other node stands for itself. -/
def follow (targets : List (Nat × Node)) (left : Nat) : Node → Except Fault (Node × Nat)
  | .alias number =>
    match left, targets.lookup number with
    | left + 1, some target => .ok (target, left)
    | 0, some _ => .error .tooManyAliases
    | _, none => .error .unknownAlias
  | node => .ok (node, left)

/-- The tree of a node whose collections nest up to a depth. -/
def treeOf (targets : List (Nat × Node)) (depth : Nat) (node : Node) (left : Nat) :
    Except Fault (Tree × Nat) := do
  let (node, left) ← follow targets left node
  match node with
  | .alias _ => .error .unknownAlias
  | .scalar p text plain => .ok (underTag p (← scalarTree p text plain), left)
  | .sequence p items =>
    match depth with
    | 0 => .error .tooDeep
    | depth + 1 =>
      let (trees, left) ← builtItems (treeOf targets depth) items left
      .ok (underTag p (.sequence trees), left)
  | .mapping p entries =>
    match depth with
    | 0 => .error .tooDeep
    | depth + 1 =>
      let (entries, left) ← builtEntries (treeOf targets depth) entries [] left
      .ok (underTag p (.mapping entries), left)

/-- The tree that a node stands for as the root of a document. Of anchors with one number the one
that starts last counts. -/
def Node.tree (root : Node) : Except Fault Tree := do
  let (tree, _) ← treeOf root.anchored.reverse depthLimit root (aliasesPerSize * root.size)
  .ok tree

end OperatorBundle.Yaml

namespace OperatorBundle

/-- The tree of the document in a YAML text. -/
def Tree.ofYaml (text : String) : Except Yaml.Fault Tree := do
  (← Yaml.Node.ofTokens (← Yaml.tokens text.toList)).tree

end OperatorBundle
