/-!
The nodes of a YAML document: scalars, sequences and mappings as written, with their tags, and
aliases that stand for a node written elsewhere.
-/

namespace OperatorBundle.Yaml

/-- What may stand before a node: an anchor, by its number, and a tag. -/
structure Properties where
  anchor : Option Nat
  tag : Option (List UInt8)

/-- No anchor and no tag. -/
def Properties.none : Properties := ⟨Option.none, Option.none⟩

/-- A node of a document. -/
inductive Node
  | alias (target : Nat)
  | scalar (properties : Properties) (text : List Char) (plain : Bool)
  | sequence (properties : Properties) (items : List Node)
  | mapping (properties : Properties) (entries : List (Node × Node))
  deriving Inhabited

namespace Node

/-- The node that is left out where one may stand. -/
def empty : Node := .scalar .none [] true

/-- The properties of a node; an alias has none of its own. -/
def properties : Node → Properties
  | .alias _ => .none
  | .scalar p _ _ => p
  | .sequence p _ => p
  | .mapping p _ => p

mutual
/-- The size of a document: one for a scalar or alias, two for the ends of a collection. -/
def size : Node → Nat
  | .alias _ => 1
  | .scalar _ _ _ => 1
  | .sequence _ items => sizeItems items + 2
  | .mapping _ entries => sizeEntries entries + 2

/-- The size of the items of a sequence. -/
def sizeItems : List Node → Nat
  | [] => 0
  | item :: more => item.size + sizeItems more

/-- The size of the entries of a mapping. -/
def sizeEntries : List (Node × Node) → Nat
  | [] => 0
  | (key, value) :: more => key.size + value.size + sizeEntries more
end

mutual
/-- The nodes with an anchor, under the number of the anchor, in the order in which they start. -/
def anchored : Node → List (Nat × Node)
  | .alias _ => []
  | .scalar p text plain => named p (.scalar p text plain)
  | .sequence p items => named p (.sequence p items) ++ anchoredItems items
  | .mapping p entries => named p (.mapping p entries) ++ anchoredEntries entries

/-- The nodes with an anchor among items and below them. -/
def anchoredItems : List Node → List (Nat × Node)
  | [] => []
  | item :: more => item.anchored ++ anchoredItems more

/-- The nodes with an anchor among entries and below them. -/
def anchoredEntries : List (Node × Node) → List (Nat × Node)
  | [] => []
  | (key, value) :: more => key.anchored ++ value.anchored ++ anchoredEntries more

/-- A node under the number of its anchor. -/
def named (p : Properties) (node : Node) : List (Nat × Node) :=
  match p.anchor with
  | some number => [(number, node)]
  | Option.none => []
end

end Node

end OperatorBundle.Yaml
