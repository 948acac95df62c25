import OperatorBundle.Locator.Basic

/-!
Following a locator: to look at a node, and to change it in place. Both look through the tags of
the collections on the way, which keep them.
-/

namespace OperatorBundle

namespace Tree

/-- The node one segment below. -/
def child? (tree : Tree) : Segment → Option Tree
  | .key name => tree.field? name
  | .index position => tree.items?.bind fun items => items[position]?
  | .find selector => tree.items?.bind fun items => items.find? selector.accepts

/-- The node that segments lead to. -/
def resolve? : Tree → List Segment → Option Tree
  | tree, [] => some tree
  | tree, segment :: rest => (tree.child? segment).bind fun child => child.resolve? rest

@[simp] theorem resolve?_nil (tree : Tree) : tree.resolve? [] = some tree := by
  cases tree <;> rfl

theorem resolve?_cons (tree : Tree) (segment : Segment) (rest : List Segment) :
    tree.resolve? (segment :: rest) =
      (tree.child? segment).bind fun child => child.resolve? rest := by
  cases tree <;> rfl

/-- Following a path and then another is following both at once. -/
theorem resolve?_append (tree : Tree) (first second : List Segment) :
    tree.resolve? (first ++ second) = (tree.resolve? first).bind (·.resolve? second) := by
  induction first generalizing tree with
  | nil => simp
  | cons segment rest ih =>
    rw [List.cons_append, resolve?_cons, resolve?_cons]
    cases tree.child? segment with
    | none => rfl
    | some child => simpa using ih child

end Tree

section Change

variable {α ε : Type}

/-- The first element that satisfies a condition is changed; without one the change fails. -/
def changeFirst (accepts : α → Bool) (change : α → Except ε α) (missing : ε) :
    List α → Except ε (List α)
  | [] => .error missing
  | a :: more =>
    if accepts a then (change a).map (· :: more)
    else (changeFirst accepts change missing more).map (a :: ·)

/-- The element at a position is changed; beyond the end the change fails. -/
def changeAt (change : α → Except ε α) (missing : ε) : Nat → List α → Except ε (List α)
  | _, [] => .error missing
  | 0, a :: more => (change a).map (· :: more)
  | position + 1, a :: more => (changeAt change missing position more).map (a :: ·)

end Change

namespace Tree

variable {ε : Type}

/-- The value of an entry is changed. -/
def changeValue (change : Tree → Except ε Tree) (entry : Entry) : Except ε Entry :=
  (change entry.2).map fun value => (entry.1, value)

/-- The node one segment below is changed in place. -/
def changeChild (change : Tree → Except ε Tree) (missing : ε) (segment : Segment) :
    Tree → Except ε Tree
  | .tagged tag content => (changeChild change missing segment content).map (.tagged tag)
  | .mapping entries =>
    match segment with
    | .key name =>
      (changeFirst (·.1.isName name) (changeValue change) missing entries).map .mapping
    | _ => .error missing
  | .sequence items =>
    match segment with
    | .index position => (changeAt change missing position items).map .sequence
    | .find selector => (changeFirst selector.accepts change missing items).map .sequence
    | .key _ => .error missing
  | _ => .error missing

/-- The node that segments lead to is changed in place. If they lead nowhere, or the change itself
fails, there is no new tree. -/
def change (change : Tree → Except ε Tree) (missing : ε) : List Segment → Tree → Except ε Tree
  | [], tree => change tree
  | segment :: rest, tree =>
    tree.changeChild (Tree.change change missing rest) missing segment

/-- The node that segments lead to is replaced. -/
def put? (segments : List Segment) (value tree : Tree) : Option Tree :=
  (tree.change (fun _ => .ok value) () segments).toOption

end Tree

end OperatorBundle
