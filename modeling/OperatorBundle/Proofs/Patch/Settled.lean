import OperatorBundle.Proofs.Patch.NamedValues
import OperatorBundle.Proofs.Patch.Run

/-!
Patches that can be run again. An action settles if it leaves what it has made as it is; a patch of
independent operations whose actions settle ends again as it did, and changes nothing.
-/

namespace OperatorBundle

open OperatorBundle.Text

/-! ### Actions that settle -/

/-- Whether an action leaves what it has made as it is. -/
def Action.Settles (action : Action) : Prop :=
  ∀ before after, action.onSpot before = .ok after → action.onSpot after = .ok after

theorem Action.settles_set (value : Tree) : (Action.set value).Settles := by
  intro before after h
  rw [eq_of_set_onSpot h]
  rfl

theorem Action.settles_remove : Action.remove.Settles := by
  intro before after h
  rw [eq_of_remove_onSpot h]
  rfl

theorem Action.settles_replace {old new : String}
    (h : ∀ text, replaceAll old.toList new.toList (replaceAll old.toList new.toList text) =
      replaceAll old.toList new.toList text) : (Action.replace old new).Settles := by
  intro before after hspot
  obtain ⟨found, changed, rfl, hchanged, rfl⟩ := exists_of_replace_onSpot hspot
  obtain ⟨text, -, rfl⟩ := Tree.replaceText_eq_ok.1 hchanged
  simp [onSpot, Tree.replaceText, Tree.text?, h, Except.map]

theorem Tree.changeItems_changeItems {change : List Tree → List Tree} {tree changed : Tree}
    (hchange : ∀ items, change (change items) = change items)
    (h : tree.changeItems change = .ok changed) : changed.changeItems change = .ok changed := by
  induction tree using Tree.inductionOn generalizing changed with
  | tagged tag content ih =>
    obtain ⟨inner, hinner, rfl⟩ := map_eq_ok.1 h
    rw [Tree.changeItems, ih hinner]
    rfl
  | sequence items =>
    obtain rfl := Except.ok.inj h
    exact congrArg (fun items => Except.ok (Tree.sequence items)) (hchange items)
  | null | bool | int | float | text | mapping => cases h

theorem Action.settles_setEntries {keyField valueField : String} (values : List (String × String))
    (h : keyField ≠ valueField) : (Action.setEntries keyField valueField values).Settles := by
  intro before after hspot
  obtain ⟨found, changed, rfl, hchanged, rfl⟩ := exists_of_setEntries_onSpot hspot
  have hagain := Tree.changeItems_changeItems (fun items => ?_) hchanged
  · simp only [onSpot, hagain, Except.map]
  · rw [List.map_map]
    exact List.map_congr_left fun item _ => Tree.withNamedValue_withNamedValue h

/-! ### Settled operations -/

variable {policy : Policy} {operations : List Operation} {tree after : Tree}
  {records : List Record}

/-- Whether operations end on a tree with the given records, and leave it as it is. -/
def Settled (policy : Policy) (tree : Tree) : List Operation → List Record → Prop :=
  List.Forall₂ fun operation record => operation.run policy tree = .ok (tree, record)

theorem Settled.ran (h : Settled policy tree operations records) :
    Ran policy operations tree records tree := by
  induction h with
  | nil => exact .nil tree
  | cons hrun _ ih => exact .cons hrun ih

theorem Ran.settled (hran : Ran policy operations tree records after)
    (hind : Independent operations)
    (hsettles : ∀ operation ∈ operations, operation.action.Settles) :
    Settled policy after operations records := by
  induction operations generalizing tree records with
  | nil =>
    cases hran
    exact .nil
  | cons operation more ih =>
    obtain ⟨⟨path, name, hkey⟩, hapart, hmoreInd⟩ := hind.of_cons
    obtain ⟨hfirst, hsettles⟩ := List.forall_mem_cons.1 hsettles
    cases hran with
    | cons hrun hmore =>
      refine .cons ?_ (ih hmore hmoreInd hsettles)
      have hspot := hmore.spot_eq hmoreInd.atKeys hkey hapart
      rw [Operation.run_eq_ok hkey.unguarded] at hrun ⊢
      rcases hrun with ⟨hact, hrecord⟩ | ⟨hact, hpolicy, rfl, hrecord⟩
      · refine .inl ⟨hkey.act_of_settled ?_, hrecord⟩
        rw [hspot]
        exact hfirst _ _ (hkey.onSpot_of_act hact)
      · refine .inr ⟨hkey.act_eq_error.2 ?_, hpolicy, rfl, hrecord⟩
        rw [hspot]
        exact hkey.act_eq_error.1 hact

/-- **A patch that can be run again**: it ends as it did, with the same report, and leaves the
document as it is. -/
theorem applyPatch_again {report : Report} (hind : Independent operations)
    (hsettles : ∀ operation ∈ operations, operation.action.Settles)
    (h : applyPatch policy operations tree = ⟨after, .ok report⟩) :
    applyPatch policy operations after = ⟨after, .ok report⟩ := by
  rw [applyPatch_eq_ok] at h ⊢
  exact (h.settled hind hsettles).ran

end OperatorBundle
