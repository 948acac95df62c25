import OperatorBundle.Proofs.Patch.Alike

/-!
Patches repeat no key: what every operation leaves has no repeated key if the document and the
values that are put in have none.
-/

namespace OperatorBundle

namespace Tree

variable {ε : Type} {tree changed : Tree}

theorem uniqueKeys_changeEntries {change : List Entry → List Entry}
    (hchange : ∀ entries, (Tree.mapping entries).uniqueKeys →
      (Tree.mapping (change entries)).uniqueKeys)
    (htree : tree.uniqueKeys) (h : tree.changeEntries change = .ok changed) :
    changed.uniqueKeys := by
  induction tree using Tree.inductionOn generalizing changed with
  | tagged tag content ih =>
    obtain ⟨inner, hinner, rfl⟩ := map_eq_ok.1 h
    rw [uniqueKeys_tagged] at htree ⊢
    exact ih htree hinner
  | mapping entries =>
    obtain rfl := Except.ok.inj h
    exact hchange entries htree
  | null | bool | int | float | text | sequence => cases h

theorem uniqueKeys_changeItems {change : List Tree → List Tree}
    (hchange : ∀ items, (∀ t ∈ items, t.uniqueKeys) → ∀ t ∈ change items, t.uniqueKeys)
    (htree : tree.uniqueKeys) (h : tree.changeItems change = .ok changed) :
    changed.uniqueKeys := by
  induction tree using Tree.inductionOn generalizing changed with
  | tagged tag content ih =>
    obtain ⟨inner, hinner, rfl⟩ := map_eq_ok.1 h
    rw [uniqueKeys_tagged] at htree ⊢
    exact ih htree hinner
  | sequence items =>
    obtain rfl := Except.ok.inj h
    exact uniqueKeys_sequence.2 (hchange items (uniqueKeys_sequence.1 htree))
  | null | bool | int | float | text | mapping => cases h

theorem uniqueKeys_changeChild {f : Tree → Except ε Tree} {missing : ε} {segment : Segment}
    (hf : ∀ old new, old.uniqueKeys → f old = .ok new → new.uniqueKeys)
    (htree : tree.uniqueKeys) (h : tree.changeChild f missing segment = .ok changed) :
    changed.uniqueKeys := by
  cases hchild : tree.child? segment with
  | none =>
    rw [changeChild_of_none hchild] at h
    cases h
  | some child =>
    obtain ⟨layers, rfl, hlayers⟩ := exists_layers (ε := ε) hchild
    rw [hlayers] at h
    obtain ⟨new, hnew, rfl⟩ := map_eq_ok.1 h
    exact uniqueKeys_wrap htree (hf child new (uniqueKeys_of_wrap htree) hnew)

theorem uniqueKeys_withNamedValue (h : tree.uniqueKeys) (keyField valueField : String)
    (values : List (String × String)) :
    (tree.withNamedValue keyField valueField values).uniqueKeys := by
  rcases withNamedValue_cases keyField valueField values tree with ⟨name, value, hname, hvalue⟩ | h'
  · rw [withNamedValue_of_lookup hname hvalue]
    refine uniqueKeys_withSpot h ?_
    rintro found hfound
    obtain rfl := Spot.holds.inj hfound
    exact uniqueKeys_text value
  · rwa [h']

theorem uniqueKeys_replaceText {old new : String} (h : tree.replaceText old new = .ok changed) :
    changed.uniqueKeys := by
  obtain ⟨text, -, rfl⟩ := replaceText_eq_ok.1 h
  exact uniqueKeys_text _

end Tree

/-- What an action makes of a parent. -/
theorem Action.uniqueKeys_of_onParent {action : Action} {last : Segment} {parent changed : Tree}
    (haction : action.uniqueKeys) (hparent : parent.uniqueKeys)
    (h : action.onParent last parent = .ok changed) : changed.uniqueKeys := by
  cases action with
  | set value =>
    have hvalue : ∀ old new : Tree, old.uniqueKeys → (Except.ok value : Except Failure Tree) =
        .ok new → new.uniqueKeys := fun _ _ _ hnew => Except.ok.inj hnew ▸ haction
    cases last with
    | key name =>
      exact Tree.uniqueKeys_changeEntries
        (fun _ hentries => Tree.uniqueKeys_insert name hentries haction) hparent h
    | index | find => exact Tree.uniqueKeys_changeChild hvalue hparent h
  | remove =>
    cases last with
    | key name =>
      exact Tree.uniqueKeys_changeEntries (fun _ => Tree.uniqueKeys_erase) hparent h
    | index position =>
      exact Tree.uniqueKeys_changeItems
        (fun _ hitems t ht => hitems t (List.mem_of_mem_eraseIdx ht)) hparent h
    | find selector =>
      exact Tree.uniqueKeys_changeItems
        (fun _ hitems t ht => hitems t (List.mem_of_mem_eraseP ht)) hparent h
  | replace old new =>
    exact Tree.uniqueKeys_changeChild (fun _ _ _ => Tree.uniqueKeys_replaceText) hparent h
  | setEntries keyField valueField values =>
    refine Tree.uniqueKeys_changeChild (fun child _ hchild => ?_) hparent h
    refine Tree.uniqueKeys_changeItems (fun items hitems t ht => ?_) hchild
    obtain ⟨item, hitem, rfl⟩ := List.mem_map.1 ht
    exact Tree.uniqueKeys_withNamedValue (hitems item hitem) keyField valueField values

namespace Operation

variable {operation : Operation} {policy : Policy} {tree changed : Tree} {record : Record}

/-- What an operation leaves has no repeated key if the document and what is put in have none. -/
theorem uniqueKeys_of_act (haction : operation.action.uniqueKeys) (htree : tree.uniqueKeys)
    (h : operation.act tree = .ok changed) : changed.uniqueKeys := by
  obtain ⟨⟨segments⟩, action, guard⟩ := operation
  rcases List.eq_nil_or_concat' segments with rfl | ⟨path, last, rfl⟩
  · cases h
  rw [act_of_segments rfl] at h
  cases hparent : tree.resolve? path with
  | none =>
    rw [Tree.change_of_none hparent] at h
    cases h
  | some parent =>
    obtain ⟨layers, rfl, hchange⟩ := Tree.exists_layers_path (ε := Failure) hparent
    rw [hchange] at h
    obtain ⟨next, hnext, rfl⟩ := map_eq_ok.1 h
    exact Tree.uniqueKeys_wrap htree
      (action.uniqueKeys_of_onParent haction (Tree.uniqueKeys_of_wrap htree) hnext)

theorem uniqueKeys_of_run (haction : operation.action.uniqueKeys) (htree : tree.uniqueKeys)
    (h : operation.run policy tree = .ok (changed, record)) : changed.uniqueKeys := by
  rcases run_cases h with ⟨hact, -⟩ | ⟨rfl, -⟩
  · exact uniqueKeys_of_act haction htree hact
  · exact htree

end Operation

/-- A run repeats no key if the document and what is put in repeat none, also one that ends
early. -/
theorem uniqueKeys_runAfter {policy : Policy} {operations : List Operation} {tree : Tree}
    (hactions : ∀ operation ∈ operations, operation.action.uniqueKeys) (htree : tree.uniqueKeys)
    (report : Report) : (runAfter policy report operations tree).tree.uniqueKeys := by
  induction operations generalizing report tree with
  | nil => exact htree
  | cons operation more ih =>
    obtain ⟨haction, hmore⟩ := List.forall_mem_cons.1 hactions
    rw [runAfter]
    cases hrun : operation.run policy tree with
    | error e => exact htree
    | ok out =>
      obtain ⟨changed, record⟩ := out
      exact ih hmore (Operation.uniqueKeys_of_run haction htree hrun) (report.push record)

theorem Manifest.uniqueKeys_patch {manifest : Manifest} {operations : List Operation}
    (hactions : ∀ operation ∈ operations, operation.action.uniqueKeys)
    (hroot : manifest.root.uniqueKeys) (policy : Policy) :
    (manifest.patch policy operations).1.root.uniqueKeys :=
  uniqueKeys_runAfter hactions hroot .empty

end OperatorBundle
