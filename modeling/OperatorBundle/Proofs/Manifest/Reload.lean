import OperatorBundle.Manifest.Storage
import OperatorBundle.Proofs.Tree.Alike
import OperatorBundle.Proofs.Yaml.DistinctKeys

/-!
Texts of manifests. A manifest that says what its source says has the text of its source; and a text
in the layout of a source reads back as the manifest, since it is given out only if it does.
-/

namespace OperatorBundle

open OperatorBundle.Layout OperatorBundle.Text

/-- A document that did not change is rendered as it was. -/
theorem renderLayout?_of_same {text : String} {old new : Tree} (h : old.same new) :
    renderLayout? text old new = some text := by
  -- the root is compared first, whatever it is
  have hblock : renderBlock? (lines text.toList) old new = some (lines text.toList).flatten := by
    cases new <;> simp [renderBlock?, h]
  rw [renderLayout?, hblock, Option.map_some, flatten_lines, String.ofList_toList]

namespace Manifest

variable {manifest : Manifest} {text : String}

theorem readsAs_iff {tree : Tree} :
    readsAs text tree ↔ ∃ found, Tree.ofYaml text = .ok found ∧ found.same tree := by
  unfold readsAs
  cases Tree.ofYaml text <;> simp

/-- Whether a manifest that has to be written anew reads back as it is. -/
def ReadsBack (manifest : Manifest) : Prop :=
  manifest.preserved? = none →
    ∀ text, manifest.root.toYaml = .ok text → readsAs text manifest.root

theorem readsBack_of_preserved (h : manifest.preserved? = some text) : manifest.ReadsBack := by
  intro hnone
  rw [h] at hnone
  cases hnone

/-- The text of a manifest reads back as the manifest. -/
theorem readsAs_of_toYaml (hback : manifest.ReadsBack) (h : manifest.toYaml = .ok text) :
    readsAs text manifest.root := by
  unfold toYaml at h
  cases hpreserved : manifest.preserved? with
  | some kept =>
    rw [hpreserved] at h
    obtain rfl := Except.ok.inj h
    obtain ⟨source, -, hfilter⟩ := Option.bind_eq_some_iff.1 hpreserved
    exact (Option.filter_eq_some_iff.1 hfilter).2
  | none =>
    rw [hpreserved] at h
    exact hback hpreserved text h

/-- A manifest that says what the text says that it was read from has that text. -/
theorem toYaml_of_same {tree : Tree} (hsource : manifest.source = some ⟨text, tree⟩)
    (hread : Tree.ofYaml text = .ok tree) (hsame : tree.same manifest.root) :
    manifest.toYaml = .ok text := by
  have hreads : readsAs text manifest.root := readsAs_iff.2 ⟨tree, hread, hsame⟩
  have hpreserved : manifest.preserved? = some text := by
    rw [preserved?, hsource, Option.bind_some, renderLayout?_of_same hsame]
    exact Option.filter_eq_some_iff.2 ⟨rfl, hreads⟩
  rw [toYaml, hpreserved]

theorem ofYaml_eq_ok :
    ofYaml text = .ok manifest ↔
      ∃ tree, Tree.ofYaml text = .ok tree ∧ manifest = ⟨tree, some ⟨text, tree⟩⟩ := by
  unfold ofYaml
  rw [map_eq_ok]
  simp [eq_comm]

theorem uniqueKeys_of_ofYaml (h : ofYaml text = .ok manifest) : manifest.root.uniqueKeys := by
  obtain ⟨tree, htree, rfl⟩ := ofYaml_eq_ok.1 h
  exact Tree.uniqueKeys_of_ofYaml htree

theorem fileText_eq_ok : manifest.fileText = .ok text ↔ manifest.toYaml = .ok text := by
  unfold fileText
  cases manifest.toYaml <;> simp

end Manifest

end OperatorBundle
