import OperatorBundle.Layout.Render
import OperatorBundle.Patch.Apply

/-!
Manifests: YAML documents that remember the text they were read from, so that writing one back
keeps the layout of everything that did not change.
-/

namespace OperatorBundle

/-- The text that a manifest was read from, and the tree that it stands for. -/
structure Source where
  text : String
  tree : Tree

/-- A YAML document. One that was not read from a text has no source. -/
structure Manifest where
  root : Tree
  source : Option Source

namespace Manifest

/-- The manifest of a tree. -/
def ofTree (root : Tree) : Manifest := ⟨root, none⟩

/-- The manifest in a text. -/
def ofYaml (text : String) : Except Yaml.Fault Manifest :=
  (Tree.ofYaml text).map fun tree => ⟨tree, some ⟨text, tree⟩⟩

/-- Whether two manifests say the same, wherever they come from. -/
def same (a b : Manifest) : Bool := a.root.same b.root

/-- Whether a text reads as a tree. -/
def readsAs (text : String) (tree : Tree) : Bool :=
  match Tree.ofYaml text with
  | .ok found => found.same tree
  | .error _ => false

/-- The manifest in the layout of its source, if that reads back as the manifest. -/
def preserved? (manifest : Manifest) : Option String :=
  manifest.source.bind fun source =>
    (renderLayout? source.text source.tree manifest.root).filter (readsAs · manifest.root)

/-- The text of a manifest: in the layout of its source where that can be kept, and written anew
otherwise. -/
def toYaml (manifest : Manifest) : Except Yaml.WriteFault String :=
  match manifest.preserved? with
  | some text => .ok text
  | none => manifest.root.toYaml

/-- The node at a locator. -/
def get? (manifest : Manifest) (locator : Locator) : Option Tree :=
  manifest.root.resolve? locator.segments

/-- The manifest with another node at a locator that leads somewhere. -/
def put? (manifest : Manifest) (locator : Locator) (value : Tree) : Option Manifest :=
  (Tree.put? locator.segments value manifest.root).map fun root => { manifest with root }

/-- The manifest after a patch, which may have ended early, and its report or error. -/
def patch (manifest : Manifest) (policy : Policy) (operations : List Operation) :
    Manifest × Except PatchError Report :=
  let run := applyPatch policy operations manifest.root
  ({ manifest with root := run.tree }, run.result)

end Manifest

/-- The endings of the names of manifest files. -/
def manifestEndings : List String := [".yaml", ".yml"]

/-- Whether a path names a manifest. -/
def isManifestPath (path : String) : Bool :=
  manifestEndings.any fun ending => ending.toList.isSuffixOf path.toList

end OperatorBundle
