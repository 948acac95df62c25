import OperatorBundle.Patch.Apply
import OperatorBundle.Proofs.Locator.Frame

/-!
Operations at a key. How an operation ends, and what it leaves at its target, is told by what stands
at the target before: the rest of the document only says where that is.
-/

namespace OperatorBundle

open OperatorBundle.Text

/-- What an action makes of what stands at its target. -/
def Action.onSpot (action : Action) : Spot → Except Failure Spot
  | .nowhere => .error .missing
  | .unkeyed =>
    match action with
    | .set _ | .remove => .error (.mismatch .mapping)
    | .replace _ _ | .setEntries _ _ _ => .error .missing
  | .free =>
    match action with
    | .set value => .ok (.holds value)
    | .remove => .ok .free
    | .replace _ _ | .setEntries _ _ _ => .error .missing
  | .holds found =>
    match action with
    | .set value => .ok (.holds value)
    | .remove => .ok .free
    | .replace old new => (found.replaceText old new).map .holds
    | .setEntries keyField valueField values =>
      (found.changeItems fun items =>
        items.map (Tree.withNamedValue keyField valueField values)).map .holds

namespace Tree

/-- A node with something else at a key. A node that is no mapping has no keys. -/
def withSpot (name : String) (spot : Spot) : Tree → Tree
  | .tagged tag content => .tagged tag (withSpot name spot content)
  | .mapping entries =>
    match spot with
    | .holds value => .mapping (insert name value entries)
    | .free => .mapping (erase name entries)
    | .nowhere | .unkeyed => .mapping entries
  | tree => tree

/-- What a change of the items of a sequence does. -/
theorem items?_of_changeItems {change : List Tree → List Tree} {tree changed : Tree}
    (h : tree.changeItems change = .ok changed) :
    ∃ items, tree.items? = some items ∧ changed.items? = some (change items) := by
  induction tree using Tree.inductionOn generalizing changed with
  | tagged tag content ih =>
    obtain ⟨inner, hinner, rfl⟩ := map_eq_ok.1 h
    obtain ⟨items, hold, hnew⟩ := ih hinner
    exact ⟨items, hold, hnew⟩
  | sequence items =>
    obtain rfl := Except.ok.inj h
    exact ⟨items, rfl, rfl⟩
  | null | bool | int | float | text | mapping => cases h

theorem replaceText_eq_ok {old new : String} {tree changed : Tree} :
    tree.replaceText old new = .ok changed ↔ ∃ text, tree.text? = some text ∧
      changed = .text (String.ofList (replaceAll old.toList new.toList text.toList)) := by
  unfold replaceText
  cases tree.text? with
  | none => simp
  | some text => simp [eq_comm]

/-! ### Another thing at a key -/

@[simp] theorem spotAt_tagged (tag : String) (content : Tree) (name : String) :
    (Tree.tagged tag content).spotAt name = content.spotAt name := rfl

theorem spotAt_mapping (entries : List Entry) (name : String) :
    (Tree.mapping entries).spotAt name =
      match lookup? name entries with
      | none => .free
      | some value => .holds value := rfl

theorem withSpot_self (node : Tree) (name : String) :
    node.withSpot name (node.spotAt name) = node := by
  induction node using Tree.inductionOn with
  | tagged tag content ih => rw [spotAt_tagged, withSpot, ih]
  | mapping entries =>
    rw [spotAt_mapping]
    cases hlookup : lookup? name entries with
    | none => simp only [withSpot, erase_self hlookup]
    | some value => simp only [withSpot, insert_self hlookup]
  | null | bool | int | float | text | sequence => rfl

/-- Only the key has something else at it. -/
theorem agreeOff_withSpot (node : Tree) (name : String) (spot : Spot) :
    AgreeOff name (node.withSpot name spot) node := by
  induction node using Tree.inductionOn with
  | tagged tag content ih => exact ih
  | mapping entries =>
    intro other hother
    cases spot with
    | nowhere | unkeyed => rfl
    | free => simp only [withSpot, spotAt_mapping, lookup?_erase_of_ne hother]
    | holds value => simp only [withSpot, spotAt_mapping, lookup?_insert_of_ne hother]
  | null | bool | int | float | text | sequence => exact fun _ _ => rfl

end Tree

/-! ### Actions -/

namespace Action

variable {before after : Spot}

/-- A value that is set is there in the end. -/
theorem eq_of_set_onSpot {value : Tree} (h : (Action.set value).onSpot before = .ok after) :
    after = .holds value := by
  cases before with
  | nowhere | unkeyed => cases h
  | free | holds => exact (Except.ok.inj h).symm

/-- What is removed leaves room, and so does what was not there. -/
theorem eq_of_remove_onSpot (h : Action.remove.onSpot before = .ok after) : after = .free := by
  cases before with
  | nowhere | unkeyed => cases h
  | free | holds => exact (Except.ok.inj h).symm

theorem exists_of_replace_onSpot {old new : String}
    (h : (Action.replace old new).onSpot before = .ok after) :
    ∃ found changed, before = .holds found ∧ found.replaceText old new = .ok changed ∧
      after = .holds changed := by
  cases before with
  | nowhere | unkeyed | free => cases h
  | holds found =>
    obtain ⟨changed, hchanged, rfl⟩ := map_eq_ok.1 h
    exact ⟨found, changed, rfl, hchanged, rfl⟩

theorem exists_of_setEntries_onSpot {keyField valueField : String} {values : List (String × String)}
    (h : (Action.setEntries keyField valueField values).onSpot before = .ok after) :
    ∃ found changed, before = .holds found ∧
      found.changeItems (fun items =>
        items.map (Tree.withNamedValue keyField valueField values)) = .ok changed ∧
      after = .holds changed := by
  cases before with
  | nowhere | unkeyed | free => cases h
  | holds found =>
    obtain ⟨changed, hchanged, rfl⟩ := map_eq_ok.1 h
    exact ⟨found, changed, rfl, hchanged, rfl⟩

/-- An action that ends well leaves a value, or room for one. -/
theorem exists_of_onSpot {action : Action} (h : action.onSpot before = .ok after) :
    after = .free ∨ ∃ value, after = .holds value := by
  cases action with
  | set value => exact .inr ⟨value, eq_of_set_onSpot h⟩
  | remove => exact .inl (eq_of_remove_onSpot h)
  | replace old new =>
    obtain ⟨-, changed, -, -, hafter⟩ := exists_of_replace_onSpot h
    exact .inr ⟨changed, hafter⟩
  | setEntries keyField valueField values =>
    obtain ⟨-, changed, -, -, hafter⟩ := exists_of_setEntries_onSpot h
    exact .inr ⟨changed, hafter⟩

end Action

namespace Tree

variable {node changed : Tree} {name : String}

theorem spotAt_withSpot {action : Action} {spot : Spot}
    (h : action.onSpot (node.spotAt name) = .ok spot) :
    (node.withSpot name spot).spotAt name = spot := by
  induction node using Tree.inductionOn with
  | tagged tag content ih => exact ih h
  | mapping entries =>
    rcases Action.exists_of_onSpot h with rfl | ⟨value, rfl⟩
    · simp only [withSpot, spotAt_mapping, lookup?_erase_self]
    · simp only [withSpot, spotAt_mapping, lookup?_insert_self]
  | null | bool | int | float | text | sequence => cases action <;> cases h

/-- A value under a key is changed, as one that is put there. -/
theorem changeChild_of_lookup? {f : Tree → Except Failure Tree} {failure : Failure} {value : Tree}
    {entries : List Entry} (h : lookup? name entries = some value) :
    (Tree.mapping entries).changeChild f failure (.key name) =
      (f value).map fun changed => .mapping (insert name changed entries) := by
  obtain ⟨pre, post, rfl, hpre⟩ := exists_of_lookup? h
  rw [changeChild_mapping value post hpre]
  simp only [insert_append value _ post hpre]

end Tree

/-- What an action makes of the parent of its target is the parent with what it makes of what stands
at the key. -/
theorem Action.onParent_eq (action : Action) (name : String) (parent : Tree) :
    action.onParent (.key name) parent =
      (action.onSpot (parent.spotAt name)).map fun spot => parent.withSpot name spot := by
  induction parent using Tree.inductionOn with
  | tagged tag content ih =>
    -- all actions go through tags in the same way
    have htagged : action.onParent (.key name) (.tagged tag content) =
        (action.onParent (.key name) content).map (Tree.tagged tag) := by
      cases action <;> rfl
    rw [htagged, ih, Tree.spotAt_tagged]
    cases action.onSpot (content.spotAt name) <;> rfl
  | mapping entries =>
    rw [Tree.spotAt_mapping]
    cases hlookup : Tree.lookup? name entries with
    | none =>
      cases action with
      | set | remove => rfl
      | replace | setEntries => exact Tree.changeChild_of_none hlookup
    | some value =>
      cases action with
      | set | remove => rfl
      | replace old new =>
        rw [Action.onParent, Tree.changeChild_of_lookup? hlookup]
        simp only [Action.onSpot]
        cases value.replaceText old new <;> rfl
      | setEntries keyField valueField values =>
        rw [Action.onParent, Tree.changeChild_of_lookup? hlookup]
        simp only [Action.onSpot]
        cases value.changeItems _ <;> rfl
  | null | bool | int | float | text | sequence => cases action <;> rfl

/-- What an action makes of a parent. -/
theorem Action.onParent_eq_ok {action : Action} {name : String} {parent changed : Tree}
    (h : action.onParent (.key name) parent = .ok changed) :
    action.onSpot (parent.spotAt name) = .ok (changed.spotAt name) ∧
      Tree.AgreeOff name changed parent := by
  rw [Action.onParent_eq] at h
  obtain ⟨spot, hspot, rfl⟩ := map_eq_ok.1 h
  rw [Tree.spotAt_withSpot hspot]
  exact ⟨hspot, Tree.agreeOff_withSpot parent name spot⟩

/-! ### Operations -/

theorem Locator.splitLast?_append {locator : Locator} {path : List Segment} {last : Segment}
    (h : locator.segments = path ++ [last]) : locator.splitLast? = some (path, last) := by
  simp [Locator.splitLast?, h]

/-- The relation between a parent and what an action makes of it at a key. -/
def Action.Makes (action : Action) (name : String) (parent changed : Tree) : Prop :=
  action.onParent (.key name) parent = .ok changed

namespace Operation

/-- An operation changes the parent of its target. -/
theorem act_of_segments {operation : Operation} {path : List Segment} {last : Segment}
    (h : operation.target.segments = path ++ [last]) (root : Tree) :
    operation.act root = root.change (operation.action.onParent last) .missing path := by
  rw [act, Locator.splitLast?_append h]

/-- An operation without a guard whose target is a key below a path, and after which the conditions
on the way there still pick the same items. -/
structure AtKey (operation : Operation) (path : List Segment) (name : String) : Prop where
  unguarded : operation.guard = none
  target : operation.target.segments = path ++ [.key name]
  steady : Tree.Steady (operation.action.Makes name) path

/-- What stands at the target of an operation. -/
def spot (operation : Operation) (root : Tree) : Spot :=
  match operation.target.splitLast? with
  | some (path, .key name) => root.spot path name
  | _ => .nowhere

/-- Operations whose targets part at a key. -/
def Apart (a b : Operation) : Prop := parts a.target.segments b.target.segments

theorem Apart.symm {a b : Operation} (h : Apart a b) : Apart b a := by
  unfold Apart
  rw [parts_comm]
  exact h

namespace AtKey

variable {operation other : Operation} {path below : List Segment} {name field : String}
  {root changed : Tree}

theorem act_eq (h : operation.AtKey path name) (root : Tree) :
    operation.act root = root.change (operation.action.onParent (.key name)) .missing path :=
  act_of_segments h.target root

theorem spot_eq (h : operation.AtKey path name) (root : Tree) :
    operation.spot root = root.spot path name := by
  rw [spot, Locator.splitLast?_append h.target]

theorem value?_spot (h : operation.AtKey path name) (root : Tree) :
    (operation.spot root).value? = root.resolve? operation.target.segments := by
  rw [h.spot_eq, Tree.value?_spot, h.target]

/-- What an operation does: it misses a parent that is not there; else its action changes what is at
the key, and the layers around the parent are kept. -/
theorem act_cases (h : operation.AtKey path name) (root : Tree) :
    (operation.act root = .error .missing ∧ operation.spot root = .nowhere) ∨
      ∃ layers parent, Tree.wrap layers parent = root ∧
        operation.spot root = parent.spotAt name ∧
        operation.act root = (operation.action.onSpot (parent.spotAt name)).map fun spot =>
          Tree.wrap layers (parent.withSpot name spot) := by
  rw [h.act_eq, h.spot_eq]
  cases hparent : root.resolve? path with
  | none =>
    refine .inl ⟨Tree.change_of_none hparent, ?_⟩
    rw [Tree.spot, hparent]
  | some parent =>
    obtain ⟨layers, hroot, hchange⟩ := Tree.exists_layers_path hparent
    refine .inr ⟨layers, parent, hroot, Tree.spot_of_resolve? hparent name, ?_⟩
    rw [hchange, Action.onParent_eq]
    cases operation.action.onSpot (parent.spotAt name) <;> rfl

/-- An operation fails if and as its action fails at the spot. -/
theorem act_eq_error (h : operation.AtKey path name) {failure : Failure} :
    operation.act root = .error failure ↔
      operation.action.onSpot (operation.spot root) = .error failure := by
  rcases h.act_cases root with ⟨hact, hspot⟩ | ⟨layers, parent, -, hspot, hact⟩
  · rw [hact, hspot]
    simp [Action.onSpot]
  · rw [hact, hspot]
    cases operation.action.onSpot (parent.spotAt name) <;> simp [Except.map]

/-- The action leaves the spot as it is: the operation leaves the document as it is. -/
theorem act_of_settled (h : operation.AtKey path name)
    (hspot : operation.action.onSpot (operation.spot root) = .ok (operation.spot root)) :
    operation.act root = .ok root := by
  rcases h.act_cases root with ⟨-, hnone⟩ | ⟨layers, parent, hroot, hparent, hact⟩
  · rw [hnone] at hspot
    cases hspot
  · rw [hparent] at hspot
    rw [hact, hspot, ← hroot]
    exact congrArg (fun node => Except.ok (Tree.wrap layers node)) (Tree.withSpot_self parent name)

/-- What an operation that ends well does to the document. -/
theorem changed_of_act (h : operation.AtKey path name) (hact : operation.act root = .ok changed) :
    Tree.Changed (operation.action.Makes name) path root changed := by
  rw [h.act_eq] at hact
  exact Tree.changed_of_change h.steady hact

/-- **What an operation leaves at its target** is what its action makes of what stood there. -/
theorem onSpot_of_act (h : operation.AtKey path name) (hact : operation.act root = .ok changed) :
    operation.action.onSpot (operation.spot root) = .ok (operation.spot changed) := by
  obtain ⟨parent, parent', hparent, hparent', hmakes⟩ := (h.changed_of_act hact).exists_leaf
  rw [h.spot_eq, h.spot_eq, Tree.spot_of_resolve? hparent, Tree.spot_of_resolve? hparent']
  exact (Action.onParent_eq_ok hmakes).1

/-- What stands at the targets of other operations stays. -/
theorem spot_of_apart (h : operation.AtKey path name) (hother : other.AtKey below field)
    (hapart : Apart other operation) (hact : operation.act root = .ok changed) :
    other.spot changed = other.spot root := by
  rw [hother.spot_eq, hother.spot_eq]
  refine (h.changed_of_act hact).spot_eq (fun n m hmakes => (Action.onParent_eq_ok hmakes).2) ?_
  rw [← h.target, ← hother.target]
  exact hapart

/-- What a path leads to stays if it parts from the target. -/
theorem resolve?_of_parts (h : operation.AtKey path name) {others : List Segment}
    (hparts : parts others operation.target.segments) (hact : operation.act root = .ok changed) :
    changed.resolve? others = root.resolve? others := by
  refine (h.changed_of_act hact).resolve?_eq
    (fun n m hmakes => (Action.onParent_eq_ok hmakes).2) ?_
  rw [← h.target]
  exact hparts

end AtKey

end Operation

end OperatorBundle
