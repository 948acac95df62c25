import OperatorBundle.Proofs.Patch.NamedValues
import OperatorBundle.Proofs.Patch.Outcome
import OperatorBundle.Proofs.Patch.ReadBack

/-!
Values that are set in the named items of a sequence. An item whose name has a value gets it, in
place or last, and keeps all else; the other items stay. The sequence stays where its locator finds
it: a condition on the way looks at a string, and the sequence is not below that.

* `changed_of_change_items`: the conditions on the way to a sequence pick the same items before and
  after.
* `named_entries_set`: what becomes of each item, and that to set the values again changes nothing.
-/

namespace OperatorBundle

namespace Tree

/-! ### Items -/

/-- A node that has got a value under a string key: in place if it had the key, and last if not. All
other entries stay, in their order, and so do the tags. -/
inductive Gets (name : String) (value : Tree) (tree changed : Tree) : Prop
  | inPlace {pre post : List Entry} {old : Tree} (htags : changed.tags = tree.tags)
      (hold : tree.entries? = some (pre ++ (.text name, old) :: post))
      (hnew : changed.entries? = some (pre ++ (.text name, value) :: post))
      (hpre : ∀ e ∈ pre, e.1.isName name = false) : Gets name value tree changed
  | last {entries : List Entry} (htags : changed.tags = tree.tags)
      (hold : tree.entries? = some entries)
      (hnew : changed.entries? = some (entries ++ [(.text name, value)]))
      (hnone : ∀ e ∈ entries, e.1.isName name = false) : Gets name value tree changed

/-- What becomes of an item: it gets the value of its name, or stays if its name has none or if it
has no name. -/
structure Assigned (keyField valueField : String) (values : List (String × String))
    (item other : Tree) : Prop where
  gets : ∀ name value, item.nameAt? keyField = some name → values.lookup name = some value →
    Gets valueField (.text value) item other
  stays : (∀ name, item.nameAt? keyField = some name → values.lookup name = none) → other = item

variable {tree changed value : Tree} {name keyField valueField : String}
  {values : List (String × String)}

theorem gets_of_changeEntries (h : tree.changeEntries (insert name value) = .ok changed) :
    Gets name value tree changed := by
  have htags := tags_of_changeEntries h
  obtain ⟨entries, hold, hnew⟩ := entries?_of_changeEntries h
  cases hlookup : lookup? name entries with
  | none =>
    rw [insert_of_none hlookup] at hnew
    exact .last htags hold hnew (not_isName_of_lookup? hlookup)
  | some old =>
    obtain ⟨pre, post, rfl, hpre⟩ := exists_of_lookup? hlookup
    rw [insert_append old value post hpre] at hnew
    exact .inPlace htags hold hnew hpre

theorem assigned_withNamedValue (keyField valueField : String) (values : List (String × String))
    (item : Tree) :
    Assigned keyField valueField values item (item.withNamedValue keyField valueField values) where
  gets name value hname hvalue := by
    obtain ⟨found, hfound, -⟩ := Option.bind_eq_some_iff.1 hname
    rw [withNamedValue_of_lookup hname hvalue]
    exact gets_of_changeEntries (changeEntries_insert hfound valueField (.text value))
  stays hnone := by
    refine withNamedValue_of_none (Option.bind_eq_none_iff.2 fun name hname => ?_)
    exact hnone name hname

/-- Items that a change of the sequence leaves as they are. -/
theorem changeItems_of_settled {change : List Tree → List Tree} {items : List Tree}
    (hitems : tree.items? = some items) (hsettled : change items = items) :
    tree.changeItems change = .ok tree := by
  induction tree using Tree.inductionOn with
  | tagged tag content ih =>
    rw [changeItems, ih hitems]
    rfl
  | sequence found =>
    obtain rfl := Option.some.inj hitems
    rw [changeItems, hsettled]
  | null | bool | int | float | text | mapping => cases hitems

/-! ### Conditions on the way to a sequence -/

section Conditions

variable {ε : Type} {f : Tree → Except ε Tree} {missing : ε} {path : List Segment} {item : Tree}

theorem text?_of_isSome_items? {node : Tree} (h : node.items?.isSome) : node.text? = none := by
  cases htext : node.text? with
  | none => rfl
  | some text =>
    rw [items?_of_text? htext] at h
    cases h

/-- **The conditions on the way to a sequence that changes pick the same items** before and
after. -/
theorem changed_of_change_items (hf : ∀ n m, f n = .ok m → n.items?.isSome)
    (h : tree.change f missing path = .ok changed) :
    Changed (fun n m => f n = .ok m) path tree changed := by
  refine changed_of_accepts (fun selector rest _ item other haccepts hchange => ?_) h
  cases rest with
  | nil =>
    -- what is accepted is a mapping
    have hsome := hf _ _ hchange
    rw [Selector.items?_of_accepts haccepts] at hsome
    cases hsome
  | cons segment rest =>
    refine accepts_of_change haccepts (fun _ node text htext changed => ?_) hchange
    exact not_change_of_text? (fun n m hnm => text?_of_isSome_items? (hf n m hnm)) htext

/-- A sequence that has changed is found where it was. -/
theorem exists_between_of_change_items (hf : ∀ n m, f n = .ok m → n.items?.isSome)
    (h : tree.change f missing path = .ok changed) :
    ∃ steps node next, tree.concrete? path = some steps ∧ tree.resolve? path = some node ∧
      changed.resolve? path = some next ∧ f node = .ok next ∧
      Between steps tree changed node next := by
  obtain ⟨steps, node, next, hsteps, hnode, hset, hbetween⟩ := exists_between_of_change h
  obtain ⟨n, m, hn, hm, hleaf⟩ := (changed_of_change_items hf h).exists_leaf
  obtain rfl := Option.some.inj (hnode.symm.trans hn)
  obtain rfl := Except.ok.inj (hset.symm.trans hleaf)
  exact ⟨steps, node, next, hsteps, hnode, hm, hset, hbetween⟩

end Conditions

end Tree

/-- **Values are set in exactly the named items.** The target is a sequence, which keeps its tags and
its length, and nothing beside it changes. Each item whose name has a value gets it, and the others
stay. If the names are not what is set, to set the values again is applied and changes nothing, under
either policy. -/
theorem named_entries_set {policy : Policy} {operation : Operation} {keyField valueField : String}
    {values : List (String × String)} {tree changed : Tree} {record : Record}
    (haction : operation.action = .setEntries keyField valueField values)
    (hrun : operation.run policy tree = .ok (changed, record))
    (happlied : record.outcome = .applied) :
    (∃ steps node next items others, tree.concrete? operation.target.segments = some steps ∧
      tree.resolve? operation.target.segments = some node ∧
      changed.resolve? operation.target.segments = some next ∧
      Tree.Between steps tree changed node next ∧ next.tags = node.tags ∧
      node.items? = some items ∧ next.items? = some others ∧
      List.Forall₂ (Tree.Assigned keyField valueField values) items others) ∧
    (keyField ≠ valueField →
      ∀ later : Policy, operation.run later changed = .ok (changed, record)) := by
  obtain ⟨hallowed, hact, hrecord⟩ := (Operation.run_eq_applied_iff happlied).1 hrun
  have htarget := Operation.target_ne_nil_of_act hact
  have hchange := Operation.act_eq_change htarget (by rw [haction]; rfl)
  rw [hchange] at hact
  have hsequence (n m : Tree) (h : n.changeItems (List.map (Tree.withNamedValue keyField valueField
      values)) = .ok m) : n.items?.isSome := by
    obtain ⟨found, hfound, -⟩ := Tree.items?_of_changeItems h
    rw [hfound]
    rfl
  obtain ⟨steps, node, next, hsteps, hnode, hnext, hset, hbetween⟩ :=
    Tree.exists_between_of_change_items hsequence hact
  obtain ⟨items, hold, hnew⟩ := Tree.items?_of_changeItems hset
  refine ⟨⟨steps, node, next, items, _, hsteps, hnode, hnext, hbetween,
    Tree.tags_of_changeItems hset, hold, hnew, ?_⟩, fun hfields later => ?_⟩
  · rw [List.forall₂_map_right_iff]
    exact List.forall₂_same.2 fun item _ => Tree.assigned_withNamedValue _ _ _ item
  · have hsettled : next.changeItems (List.map (Tree.withNamedValue keyField valueField values)) =
        .ok next := by
      refine Tree.changeItems_of_settled hnew ?_
      rw [List.map_map]
      exact List.map_congr_left fun item _ => Tree.withNamedValue_withNamedValue hfields
    have hthere : (changed.resolve? operation.target.segments).isSome =
        (tree.resolve? operation.target.segments).isSome := by
      rw [hnext, hnode]
      rfl
    refine (Operation.run_eq_applied_iff happlied).2 ⟨?_, ?_, hrecord⟩
    · rw [Operation.allowed_congr hthere, hallowed]
    · rw [hchange]
      exact Tree.change_of_settled hnext hsettled .missing

/-- Settings of a container: one with a value, one without, one with a tag, a string, and one whose
name is no string. -/
def containerSettings : Tree :=
  let setting (name : Tree) := Tree.mapping [(.text "name", name)]
  .mapping [(.text "containers", .sequence [.mapping [(.text "name", .text "quay"),
    (.text "env", .sequence [
      .mapping [(.text "value", .text "old"), (.text "name", .text "A")], setting (.text "B"),
      .tagged "kept" (setting (.text "A")), .text "A", setting (.int 1)])]])]

/-- Values for two of the settings of the first container that has the word in its name. -/
def settingsValues : Operation :=
  .setEntries ⟨[.key "containers", .find ⟨"name", .contains "quay"⟩, .key "env"]⟩ "name" "value"
    [("A", "new"), ("C", "none")]

theorem named_entries_set_twice :
    ∃ changed record next items others,
      settingsValues.run .fail containerSettings = .ok (changed, record) ∧
      changed.resolve? settingsValues.target.segments = some next ∧ next.items? = some others ∧
      List.Forall₂ (Tree.Assigned "name" "value" [("A", "new"), ("C", "none")]) items others ∧
      others.length = 5 ∧ settingsValues.run .ignore changed = .ok (changed, record) := by
  have hrun : settingsValues.run .fail containerSettings = .ok (_, _) := rfl
  obtain ⟨⟨-, node, next, items, others, -, hnode, hnext, -, -, hitems, hothers, hassigned⟩,
    hagain⟩ :=
    named_entries_set rfl hrun rfl
  refine ⟨_, _, next, items, others, hrun, hnext, hothers, hassigned, ?_, hagain (by decide) .ignore⟩
  obtain rfl := Option.some.inj (hnode.symm.trans rfl)
  obtain rfl := Option.some.inj (hitems.symm.trans rfl)
  exact hassigned.length_eq.symm

end OperatorBundle
