import OperatorBundle.Proofs.Patch.Sequence

/-!
How one operation ends. This is decided by what its parent segments lead to, by what stands at its
target, and by whether the action works on the parent or on the target itself. Tags are looked
through.

* `Operation.act_eq_change`: actions that change the node at their target.
* `ends_iff`: how an operation without a guard ends, for all actions, last segments and nodes.
-/

namespace OperatorBundle

/-- How an operation ends: it is applied, its target is missing, or a node is not of the kind that
it needs. -/
inductive Ending
  | applied
  | missed
  | mismatched (needed : NodeKind)
  deriving DecidableEq, Repr

/-- Whether a result shows an ending. -/
def Ending.Shows : Ending → Except Failure Tree → Prop
  | .applied, result => ∃ changed, result = .ok changed
  | .missed, result => result = .error .missing
  | .mismatched needed, result => result = .error (.mismatch needed)

/-! ### Kinds that a change needs -/

namespace Tree

/-- Whether a node is of a kind, below its tags. -/
def isOfKind (kind : NodeKind) (tree : Tree) : Bool :=
  match kind, tree.untagged with
  | .mapping, .mapping _ | .sequence, .sequence _ | .string, .text _ => true
  | _, _ => false

/-- How a change that needs a kind ends at a node. -/
def endingAs (kind : NodeKind) (tree : Tree) : Ending :=
  if tree.isOfKind kind then .applied else .mismatched kind

/-- A change that is made at nodes of one kind and at no others. -/
def Needs (kind : NodeKind) (f : Tree → Except Failure Tree) : Prop :=
  ∀ tree : Tree, (tree.endingAs kind).Shows (f tree)

variable {tree : Tree} {kind : NodeKind} {f : Tree → Except Failure Tree}

theorem isSome_entries? (tree : Tree) : tree.entries?.isSome = tree.isOfKind .mapping := by
  induction tree using Tree.inductionOn with
  | tagged tag content ih => exact ih
  | null | bool | int | float | text | sequence | mapping => rfl

theorem isSome_items? (tree : Tree) : tree.items?.isSome = tree.isOfKind .sequence := by
  induction tree using Tree.inductionOn with
  | tagged tag content ih => exact ih
  | null | bool | int | float | text | sequence | mapping => rfl

theorem isSome_text? (tree : Tree) : tree.text?.isSome = tree.isOfKind .string := by
  induction tree using Tree.inductionOn with
  | tagged tag content ih => exact ih
  | null | bool | int | float | text | sequence | mapping => rfl

/-- What stands around a node has no part in how a change of it ends. -/
theorem shows_map {ending : Ending} {result : Except Failure Tree} (h : ending.Shows result)
    (around : Tree → Tree) : ending.Shows (result.map around) := by
  cases ending with
  | applied =>
    obtain ⟨changed, rfl⟩ := h
    exact ⟨around changed, rfl⟩
  | missed | mismatched =>
    rw [show result = .error _ from h]
    rfl

theorem needs_changeEntries (change : List Entry → List Entry) :
    Needs .mapping (changeEntries change) := by
  intro tree
  induction tree using Tree.inductionOn with
  | tagged tag content ih => exact shows_map ih (.tagged tag)
  | mapping entries => exact ⟨.mapping (change entries), rfl⟩
  | null | bool | int | float | text | sequence => rfl

theorem needs_changeItems (change : List Tree → List Tree) :
    Needs .sequence (changeItems change) := by
  intro tree
  induction tree using Tree.inductionOn with
  | tagged tag content ih => exact shows_map ih (.tagged tag)
  | sequence items => exact ⟨.sequence (change items), rfl⟩
  | null | bool | int | float | text | mapping => rfl

theorem needs_replaceText (old new : String) : Needs .string (replaceText old new) := by
  intro tree
  unfold replaceText
  rw [endingAs, ← isSome_text?]
  cases tree.text? with
  | none => rfl
  | some text => exact ⟨_, rfl⟩

/-- A change of the node at the end of a path ends as the node allows. -/
theorem shows_change (hneeds : Needs kind f) (path : List Segment) (tree : Tree) :
    ((tree.resolve? path).elim .missed (·.endingAs kind)).Shows (tree.change f .missing path) := by
  cases hnode : tree.resolve? path with
  | none => exact change_of_none hnode
  | some node =>
    obtain ⟨layers, -, hchange⟩ := exists_layers_path (ε := Failure) hnode
    rw [hchange]
    exact shows_map (hneeds node) (wrap layers)

theorem change_append_singleton {ε : Type} (f : Tree → Except ε Tree) (missing : ε)
    (path : List Segment) (last : Segment) (tree : Tree) :
    tree.change f missing (path ++ [last]) =
      tree.change (fun parent => parent.changeChild f missing last) missing path := by
  induction path generalizing tree with
  | nil => rfl
  | cons segment rest ih =>
    rw [List.cons_append, change_cons, change_cons]
    exact congrArg (fun g => tree.changeChild g missing segment) (funext ih)

end Tree

/-! ### Actions -/

namespace Action

/-- What an action makes of the node at its target, if it works on that and not on the parent. -/
def onTarget? : Action → Option (Tree → Except Failure Tree)
  | .set _ | .remove => none
  | .replace old new => some (Tree.replaceText old new)
  | .setEntries keyField valueField values =>
    some (Tree.changeItems fun items => items.map (Tree.withNamedValue keyField valueField values))

/-- How an action ends, from the parent of its target and from what stands at the target. -/
def ending (action : Action) (last : Segment) (parent found : Option Tree) : Ending :=
  match parent, action, last with
  | none, _, _ => .missed
  | some node, .set _, .key _ | some node, .remove, .key _ => node.endingAs .mapping
  | some _, .set _, .index _ | some _, .set _, .find _ => if found.isSome then .applied else .missed
  | some node, .remove, .index _ | some node, .remove, .find _ => node.endingAs .sequence
  | some _, .replace _ _, _ => found.elim .missed (·.endingAs .string)
  | some _, .setEntries _ _ _, _ => found.elim .missed (·.endingAs .sequence)

end Action

namespace Operation

variable {operation : Operation} {f : Tree → Except Failure Tree} {path : List Segment}
  {last : Segment} {policy : Policy} {tree changed : Tree} {record : Record} {ending : Ending}

/-- A guard looks at nothing but whether the target is there. -/
theorem allowed_congr (h : (changed.resolve? operation.target.segments).isSome =
    (tree.resolve? operation.target.segments).isSome) :
    operation.allowed changed = operation.allowed tree := by
  unfold allowed
  rcases operation.guard with - | condition | - | -
  · rfl
  · rfl
  · simp only [Option.all_some, Guard.allows, ← Option.not_isSome, h]
  · exact h

/-- The operations that are recorded as applied. -/
theorem run_eq_applied_iff (happlied : record.outcome = .applied) :
    operation.run policy tree = .ok (changed, record) ↔
      operation.allowed tree = true ∧ operation.act tree = .ok changed ∧
        record = operation.record .applied := by
  rw [run_eq_ok_iff]
  constructor
  · rintro (⟨-, -, rfl⟩ | h | ⟨-, -, -, -, rfl⟩)
    · cases happlied
    · exact h
    · cases happlied
  · exact fun h => .inr (.inl h)

theorem target_ne_nil_of_act (h : operation.act tree = .ok changed) :
    operation.target.segments ≠ [] := by
  intro hnil
  rw [act, Locator.splitLast?, hnil] at h
  cases h

/-- An action that works on its target changes the node there. -/
theorem act_eq_change (htarget : operation.target.segments ≠ [])
    (haction : operation.action.onTarget? = some f) (tree : Tree) :
    operation.act tree = tree.change f .missing operation.target.segments := by
  obtain hnil | ⟨path, last, hsegments⟩ := List.eq_nil_or_concat' operation.target.segments
  · exact absurd hnil htarget
  rw [act_of_segments hsegments, hsegments, Tree.change_append_singleton]
  cases hkind : operation.action with
  | set | remove => rw [hkind] at haction; cases haction
  | replace | setEntries =>
    rw [hkind] at haction
    obtain rfl := Option.some.inj haction
    rfl

/-- **How the action of an operation ends.** -/
theorem shows_act (htarget : operation.target.segments = path ++ [last]) (tree : Tree) :
    (operation.action.ending last (tree.resolve? path)
      (tree.resolve? operation.target.segments)).Shows (operation.act tree) := by
  have hne : operation.target.segments ≠ [] := by simp [htarget]
  cases hparent : tree.resolve? path with
  | none => exact (act_of_segments htarget tree).trans (Tree.change_of_none hparent)
  | some parent =>
    have hfound : tree.resolve? operation.target.segments = parent.child? last := by
      rw [htarget, Tree.resolve?_append, hparent, Option.bind_some, Tree.resolve?_singleton]
    obtain ⟨layers, -, hchange⟩ := Tree.exists_layers_path (ε := Failure) hparent
    have hact := (act_of_segments htarget tree).trans (hchange _ .missing)
    cases haction : operation.action with
    | set value =>
      rw [haction] at hact
      rw [hact]
      refine Tree.shows_map ?_ _
      cases last with
      | key name => exact Tree.needs_changeEntries _ parent
      | index | find =>
        -- the item that is there is replaced
        rw [hfound]
        cases hchild : parent.child? _ with
        | none => exact Tree.changeChild_of_none hchild
        | some child =>
          obtain ⟨inner, -, hset⟩ := Tree.exists_layers (ε := Failure) hchild
          exact ⟨_, hset (fun _ => .ok value) .missing⟩
    | remove =>
      rw [haction] at hact
      rw [hact]
      refine Tree.shows_map ?_ _
      cases last with
      | key name => exact Tree.needs_changeEntries _ parent
      | index | find => exact Tree.needs_changeItems _ parent
    | replace old new =>
      rw [act_eq_change hne (by rw [haction]; rfl)]
      exact Tree.shows_change (Tree.needs_replaceText old new) _ tree
    | setEntries keyField valueField values =>
      rw [act_eq_change hne (by rw [haction]; rfl)]
      exact Tree.shows_change (Tree.needs_changeItems _) _ tree

/-- Whether an operation ends so in a run under a policy: a missing target is passed over or ends
the run, and a node of another kind than the operation needs ends it with the target as written. -/
def Ends (operation : Operation) (policy : Policy) (tree : Tree) : Ending → Prop
  | .applied => ∃ changed, operation.run policy tree = .ok (changed, operation.record .applied)
  | .missed =>
    operation.run policy tree =
      match policy with
      | .ignore => .ok (tree, operation.record .missed)
      | .fail => .error (.locatorMiss operation.target.text)
  | .mismatched needed =>
    operation.run policy tree = .error (.typeMismatch operation.target.text needed)

/-- An operation that its guard lets run ends as its action does. -/
theorem ends_of_shows (hallowed : operation.allowed tree = true)
    (h : ending.Shows (operation.act tree)) : operation.Ends policy tree ending := by
  cases ending with
  | applied =>
    obtain ⟨changed, hact⟩ := h
    exact ⟨changed, by simp [run, hallowed, hact]⟩
  | missed =>
    have hact : operation.act tree = .error .missing := h
    cases policy <;> simp [Ends, run, hallowed, hact]
  | mismatched needed =>
    have hact : operation.act tree = .error (.mismatch needed) := h
    simp [Ends, run, hallowed, hact]

/-- An operation ends in one way. -/
theorem Ends.unique {other : Ending} (h : operation.Ends policy tree ending)
    (hother : operation.Ends policy tree other) : ending = other := by
  cases ending <;> cases other <;> cases policy <;> simp_all [Ends, record]

end Operation

/-- **How an operation without a guard ends.** If its parent is missing it misses. Otherwise a value
is set, and an entry removed, at a key of a mapping only; a value is set at an item that is there,
and an item removed from any sequence; a text is replaced in a string that is there, and entries are
set in a sequence that is there. There are no other endings, under either policy. -/
theorem ends_iff {policy : Policy} {operation : Operation} {path : List Segment} {last : Segment}
    (hguard : operation.guard = none) (htarget : operation.target.segments = path ++ [last])
    (tree : Tree) (ending : Ending) :
    operation.Ends policy tree ending ↔
      ending = operation.action.ending last (tree.resolve? path)
        (tree.resolve? operation.target.segments) := by
  have hallowed : operation.allowed tree = true := by simp [Operation.allowed, hguard]
  have hends : operation.Ends policy tree (operation.action.ending last (tree.resolve? path)
      (tree.resolve? operation.target.segments)) :=
    Operation.ends_of_shows hallowed (Operation.shows_act htarget tree)
  constructor
  · intro h
    exact h.unique hends
  · rintro rfl
    exact hends

/-- A document with a tagged mapping, and a list in it. -/
def taggedDocument : Tree :=
  .mapping [(.text "spec", .tagged "spec" (.mapping [(.text "name", .text "quay"),
    (.text "items", .sequence [.text "first", .null])]))]

/-- A removal behind the end of a sequence, and one where there is no sequence. -/
theorem ends_iff_remove :
    (Operation.remove ((Locator.path "spec.items").index 2)).Ends .fail taggedDocument .applied ∧
      (Operation.remove ((Locator.path "spec.name").index 2)).Ends .ignore taggedDocument
        (.mismatched .sequence) := by
  have hitems : ((Locator.path "spec.items").index 2).segments =
      [.key "spec", .key "items"] ++ [.index 2] := by decide
  have hname : ((Locator.path "spec.name").index 2).segments =
      [.key "spec", .key "name"] ++ [.index 2] := by decide
  exact ⟨(ends_iff rfl hitems taggedDocument .applied).2 (by decide),
    (ends_iff rfl hname taggedDocument (.mismatched .sequence)).2 (by decide)⟩

end OperatorBundle
