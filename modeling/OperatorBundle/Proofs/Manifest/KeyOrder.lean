import OperatorBundle.Proofs.Layout.KeyOrder
import OperatorBundle.Proofs.Locator.Path
import OperatorBundle.Proofs.Manifest.History
import OperatorBundle.Proofs.Tree.Order

/-!
The order of keys in the text of a manifest. A tree that is written anew is listed in its order, and
so is every mapping that changed in a text that keeps its layout. But what is the same as before,
the order of its keys aside, keeps its lines; so a key that was removed and set again to what it had
is last in the tree, and where it always was in the text.
-/

namespace OperatorBundle

open OperatorBundle.Text

/-- Whether a text reads as a tree, in the order of its keys. -/
def Manifest.readsInOrder (text : String) (tree : Tree) : Bool :=
  match Tree.ofYaml text with
  | .ok found => found.sameInOrder tree
  | .error _ => false

/-- The manifest in the layout of its source, if that reads back as the manifest in its order. -/
def Manifest.preservedInOrder? (manifest : Manifest) : Option String :=
  manifest.source.bind fun source =>
    (renderLayout? source.text source.tree manifest.root).filter (readsInOrder · manifest.root)

/-- Whether the text that a tree is written as reads back as the tree, in its order. -/
def Tree.WrittenInOrder (tree : Tree) : Prop :=
  ∀ text, tree.toYaml = .ok text → Manifest.readsInOrder text tree

namespace Manifest

variable {manifest patched : Manifest} {text dumped : String}

theorem readsInOrder_of_ofYaml {found tree : Tree} (h : Tree.ofYaml text = .ok found) :
    readsInOrder text tree = found.sameInOrder tree := by
  rw [readsInOrder, h]

/-- A text that reads as a tree in its order reads as the tree. -/
theorem readsAs_of_readsInOrder {tree : Tree} (hunique : tree.uniqueKeys)
    (h : readsInOrder text tree) : readsAs text tree := by
  cases hread : Tree.ofYaml text with
  | error e => simp [readsInOrder, hread] at h
  | ok found =>
    rw [readsInOrder_of_ofYaml hread] at h
    exact readsAs_iff.2
      ⟨found, hread, Tree.same_of_sameInOrder (Tree.uniqueKeys_of_ofYaml hread) hunique h⟩

/-- Taking in the order only makes the check stricter. -/
theorem preservedInOrder?_eq_some (hunique : manifest.root.uniqueKeys) :
    manifest.preservedInOrder? = some text ↔
      manifest.preserved? = some text ∧ readsInOrder text manifest.root := by
  unfold preservedInOrder? preserved?
  cases manifest.source with
  | none => simp
  | some source =>
    simp only [Option.bind_some, Option.filter_eq_some_iff]
    constructor
    · rintro ⟨hrender, horder⟩
      exact ⟨⟨hrender, readsAs_of_readsInOrder hunique horder⟩, horder⟩
    · rintro ⟨⟨hrender, -⟩, horder⟩
      exact ⟨hrender, horder⟩

/-- A text that a manifest gives out reads back in the tree's order if and only if the check on the
layout would end as it does with the order taken in. -/
theorem readsInOrder_iff (hunique : manifest.root.uniqueKeys)
    (hwritten : manifest.root.WrittenInOrder) (h : manifest.toYaml = .ok text) :
    readsInOrder text manifest.root ↔ manifest.preservedInOrder? = manifest.preserved? := by
  unfold toYaml at h
  cases hpreserved : manifest.preserved? with
  | none =>
    rw [hpreserved] at h
    have hnone : manifest.preservedInOrder? = none := by
      rw [Option.eq_none_iff_forall_ne_some]
      intro kept hkept
      rw [preservedInOrder?_eq_some hunique, hpreserved] at hkept
      cases hkept.1
    exact iff_of_true (hwritten text h) hnone
  | some kept =>
    rw [hpreserved] at h
    obtain rfl := Except.ok.inj h
    rw [preservedInOrder?_eq_some hunique]
    exact ⟨fun horder => ⟨hpreserved, horder⟩, And.right⟩

/-- How the keys are listed in a text that a manifest gives out: in the tree's order if it is
written anew, and else in the order in which the tree was laid out. -/
theorem toYaml_cases {source : Source} (hsource : manifest.source = some source)
    (h : manifest.toYaml = .ok text) :
    manifest.root.toYaml = .ok text ∨
      Layout.InOrder (lines source.text.toList) source.tree manifest.root text.toList := by
  unfold toYaml at h
  cases hpreserved : manifest.preserved? with
  | none =>
    rw [hpreserved] at h
    exact .inl h
  | some kept =>
    rw [hpreserved] at h
    obtain rfl := Except.ok.inj h
    rw [preserved?, hsource, Option.bind_some] at hpreserved
    obtain ⟨out, hout, rfl⟩ := Option.map_eq_some_iff.1 (Option.filter_eq_some_iff.1 hpreserved).1
    rw [String.toList_ofList]
    exact .inr (Layout.rendersInOrder _ _ _ _ hout)

end Manifest

/-! ### A key that is removed and set again -/

namespace Tree

variable {name : String} {node old value : Tree}

theorem entries?_set_again {entries : List Entry} (h : node.entries? = some entries)
    (name : String) (value : Tree) :
    ((node.withSpot name .free).withSpot name (.holds value)).entries? =
      some (erase name entries ++ [(.text name, value)]) := by
  induction node using Tree.inductionOn with
  | tagged tag content ih => exact ih h
  | mapping others =>
    obtain rfl := Option.some.inj h
    exact congrArg some (insert_erase name value others)
  | null | bool | int | float | text | sequence => cases h

theorem alike_set_again (hunique : node.uniqueKeys) (hold : node.field? name = some old)
    (hvalue : value.Alike old) :
    ((node.withSpot name .free).withSpot name (.holds value)).Alike node := by
  induction node using Tree.inductionOn with
  | tagged tag content ih => exact (ih (uniqueKeys_tagged ▸ hunique) hold).tagged tag
  | mapping entries => exact alike_insert_erase hunique hold hvalue
  | null | bool | int | float | text | sequence => cases hold

theorem spotAt_of_field? (h : node.field? name = some old) : node.spotAt name = .holds old := by
  rw [← value?_spotAt] at h
  cases hspot : node.spotAt name with
  | holds found =>
    rw [hspot] at h
    rw [Option.some.inj h]
  | nowhere | unkeyed | free => simp [hspot, Spot.value?] at h

end Tree

namespace Operation

variable {tree old : Tree} {path : List Tree.Step} {name : String}

/-- The locator of a key below a concrete path. -/
def keyAt (path : List Tree.Step) (name : String) : Locator :=
  Locator.key ⟨path.map Tree.Step.segment⟩ name

/-- A key is removed and set again: it is last among the keys of its mapping, and the tree is the
same if the value is. -/
theorem exists_acts_set_again (hunique : tree.uniqueKeys)
    (hold : tree.at? (path ++ [.key name]) = some old) {value : Tree} (hvalue : value.Alike old) :
    ∃ mid changed parent parent' entries,
      (Operation.remove (keyAt path name)).act tree = .ok mid ∧
      (Operation.set (keyAt path name) value).act mid = .ok changed ∧
      changed.Alike tree ∧ tree.at? path = some parent ∧ parent.entries? = some entries ∧
      changed.at? path = some parent' ∧
      parent'.entries? = some (Tree.erase name entries ++ [(.text name, value)]) := by
  rw [Tree.at?_append_singleton] at hold
  obtain ⟨parent, hparent, hfield⟩ := Option.bind_eq_some_iff.1 hold
  obtain ⟨entries, hentries, -⟩ := Option.bind_eq_some_iff.1 hfield
  obtain ⟨layers, rfl, hlayers⟩ := Tree.exists_layers_at (ε := Failure) hparent
  have hspot : Action.remove.onSpot (parent.spotAt name) = .ok .free := by
    rw [Tree.spotAt_of_field? hfield]
    rfl
  have hremove : Action.remove.onParent (.key name) parent = .ok (parent.withSpot name .free) := by
    rw [Action.onParent_eq, hspot]
    rfl
  have hfree : (parent.withSpot name .free).spotAt name = .free := Tree.spotAt_withSpot hspot
  have hset : (Action.set value).onParent (.key name) (parent.withSpot name .free) =
      .ok ((parent.withSpot name .free).withSpot name (.holds value)) := by
    rw [Action.onParent_eq, hfree]
    rfl
  refine ⟨Tree.wrap layers (parent.withSpot name .free), _, parent, _, entries, ?_, ?_, ?_, hparent,
    hentries, (hlayers _).1, Tree.entries?_set_again hentries name value⟩
  · rw [act_of_segments rfl, (hlayers _).2]
    exact congrArg (Except.map _) hremove
  · rw [act_of_segments rfl, (hlayers _).2]
    exact congrArg (Except.map _) hset
  · exact (Tree.alike_set_again (Tree.uniqueKeys_of_wrap hunique) hfield hvalue).wrap hunique

end Operation

namespace Manifest

variable {manifest : Manifest} {text : String}

/-- A key that is removed and set again to what it had: the tree lists it last, and is the same. -/
theorem same_of_set_again {policy : Policy} {path : List Tree.Step} {name : String}
    {old value : Tree} {result : Except PatchError Report} (hunique : manifest.root.uniqueKeys)
    (hold : manifest.root.at? (path ++ [.key name]) = some old) (hvalue : value.Alike old)
    (hpatch : manifest.patch policy [.remove (Operation.keyAt path name),
      .set (Operation.keyAt path name) value] = (patched, result)) :
    manifest.same patched ∧ ∃ parent parent' entries, manifest.root.at? path = some parent ∧
      parent.entries? = some entries ∧ patched.root.at? path = some parent' ∧
      parent'.entries? = some (Tree.erase name entries ++ [(.text name, value)]) := by
  obtain ⟨mid, changed, parent, parent', entries, hremove, hset, halike, hplaces⟩ :=
    Operation.exists_acts_set_again hunique hold hvalue
  have hran : Ran policy [.remove (Operation.keyAt path name),
      .set (Operation.keyAt path name) value] manifest.root _ changed :=
    .cons ((Operation.run_eq_ok rfl).2 (.inl ⟨hremove, rfl⟩))
      (.cons ((Operation.run_eq_ok rfl).2 (.inl ⟨hset, rfl⟩)) (.nil changed))
  have hrun : manifest.patch policy [.remove (Operation.keyAt path name),
      .set (Operation.keyAt path name) value] = (⟨changed, manifest.source⟩, .ok ⟨_⟩) :=
    patch_eq_ok.2 ⟨hran, rfl⟩
  obtain ⟨rfl, -⟩ := Prod.mk.inj (hpatch.symm.trans hrun)
  exact ⟨halike.symm.same, parent, parent', entries, hplaces⟩

/-- **When the text keeps the order of keys.** The text of a patched manifest reads back as the tree,
the order of keys aside; and in the tree's order if and only if the check that lets the layout be
kept, which leaves the order out, would end as it does with the order taken in. It is written anew,
or lists every mapping that changed in the tree's order, and only what says the same as the source
in the source's. So without a net change the order is the tree's if and only if the patch kept that
of the source; and after a key is removed and set again to what it had, which the tree lists last,
the text is still the source. -/
theorem reads_in_order_iff {policy : Policy} {operations : List Operation} {report : Report}
    (hread : ofYaml text = .ok manifest)
    (hpatch : manifest.patch policy operations = (patched, .ok report))
    (hactions : ∀ operation ∈ operations, operation.action.uniqueKeys)
    (hwritten : patched.root.WrittenInOrder) (hdumped : patched.toYaml = .ok dumped) :
    readsAs dumped patched.root ∧
    (readsInOrder dumped patched.root ↔ patched.preservedInOrder? = patched.preserved?) ∧
    (patched.root.toYaml = .ok dumped ∨
      Layout.InOrder (lines text.toList) manifest.root patched.root dumped.toList) ∧
    (manifest.same patched → dumped = text ∧
      (readsInOrder dumped patched.root ↔ manifest.root.sameInOrder patched.root)) ∧
    ∀ path name old value, operations = [.remove (Operation.keyAt path name),
        .set (Operation.keyAt path name) value] →
      manifest.root.at? (path ++ [.key name]) = some old → value.Alike old →
      dumped = text ∧ ∃ parent parent' entries, manifest.root.at? path = some parent ∧
        parent.entries? = some entries ∧ patched.root.at? path = some parent' ∧
        parent'.entries? = some (Tree.erase name entries ++ [(.text name, value)]) := by
  obtain ⟨tree, htree, rfl⟩ := ofYaml_eq_ok.1 hread
  have hunique := uniqueKeys_patch hactions (uniqueKeys_of_ofYaml hread) policy
  rw [hpatch] at hunique
  have hsource := (patch_eq_ok.1 hpatch).2
  have hback : patched.ReadsBack :=
    fun _ written hyaml => readsAs_of_readsInOrder hunique (hwritten written hyaml)
  have hunchanged : tree.same patched.root → dumped = text := fun hsame =>
    Except.ok.inj (hdumped.symm.trans (toYaml_of_ofYaml hread hsource hsame))
  refine ⟨readsAs_of_toYaml hback hdumped, readsInOrder_iff hunique hwritten hdumped,
    toYaml_cases hsource hdumped, ?_, ?_⟩
  · intro hsame
    obtain rfl := hunchanged hsame
    exact ⟨rfl, by rw [readsInOrder_of_ofYaml htree]⟩
  · rintro path name old value rfl hold hvalue
    obtain ⟨hsame, hplaces⟩ :=
      same_of_set_again (uniqueKeys_of_ofYaml hread) hold hvalue hpatch
    exact ⟨hunchanged hsame, hplaces⟩

end Manifest

/-! ### Two keys -/

namespace Manifest

/-- A text with two keys. -/
def pairText : String := "a: 1\nb: 2\n"

/-- Its tree. -/
def pairTree : Tree := .mapping [(.text "a", .int 1), (.text "b", .int 2)]

/-- The tree with the first key put back behind the second. -/
def swappedTree : Tree := .mapping [(.text "b", .int 2), (.text "a", .int 1)]

/-- The first key is removed and set again. -/
def swap : List Operation :=
  [.remove (Operation.keyAt [] "a"), .set (Operation.keyAt [] "a") (.int 1)]

theorem ofYaml_pairText : ofYaml pairText = .ok ⟨pairTree, some ⟨pairText, pairTree⟩⟩ :=
  ofYaml_eq_ok.2 ⟨pairTree, by decide +kernel, rfl⟩

theorem patch_swap :
    patch ⟨pairTree, some ⟨pairText, pairTree⟩⟩ .fail swap =
      (⟨swappedTree, some ⟨pairText, pairTree⟩⟩, .ok ⟨swap.map (·.record .applied)⟩) := rfl

theorem writtenInOrder_swappedTree : swappedTree.WrittenInOrder := by
  intro text htext
  have hyaml : swappedTree.toYaml = .ok "b: 2\na: 1\n" := by decide +kernel
  obtain rfl := Except.ok.inj (hyaml.symm.trans htext)
  decide +kernel

theorem toYaml_swapped : toYaml ⟨swappedTree, some ⟨pairText, pairTree⟩⟩ = .ok pairText := by
  decide +kernel

theorem reads_in_order_iff_swapped :
    readsAs pairText swappedTree ∧
      (readsInOrder pairText swappedTree ↔ pairTree.sameInOrder swappedTree) := by
  obtain ⟨hreads, -, -, hsame, -⟩ := reads_in_order_iff ofYaml_pairText patch_swap (by decide)
    writtenInOrder_swappedTree toYaml_swapped
  exact ⟨hreads, (hsame (by decide)).2⟩

/-- The order that the text reads back in is not that of the tree. -/
theorem order_lost :
    ¬ ∀ text manifest policy operations patched report dumped, ofYaml text = .ok manifest →
      manifest.patch policy operations = (patched, .ok report) →
      (∀ operation ∈ operations, operation.action.uniqueKeys) →
      patched.root.WrittenInOrder → patched.toYaml = .ok dumped →
      readsInOrder dumped patched.root := by
  intro h
  have horder := h _ _ _ _ _ _ _ ofYaml_pairText patch_swap (by decide)
    writtenInOrder_swappedTree toYaml_swapped
  revert horder
  decide +kernel

end Manifest

end OperatorBundle
