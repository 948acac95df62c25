import OperatorBundle.Proofs.Tree.Sameness
import OperatorBundle.Yaml.Document

/-!
Trees that are read from a text have no repeated keys: a reader compares each key of a mapping with
those before it, and aliases stand for nodes that it builds in the same way.
-/

namespace OperatorBundle.Yaml

open OperatorBundle.Tree

/-- A computation that goes on after another succeeds only if both do. -/
theorem bind_eq_ok {ε α β : Type} {x : Except ε α} {f : α → Except ε β} {b : β} :
    (x >>= f) = .ok b ↔ ∃ a, x = .ok a ∧ f a = .ok b := by
  cases x <;> simp [bind, Except.bind]

section Scalars

/-- A tree that a scalar may stand for: one that is no string, or the text as it is. -/
inductive IsLeaf (text : List Char) : Tree → Prop
  | null : IsLeaf text .null
  | bool (b : Bool) : IsLeaf text (.bool b)
  | int (n : Int) : IsLeaf text (.int n)
  | float (x : Number.Double) : IsLeaf text (.float x)
  | text : IsLeaf text (.text (String.ofList text))

variable {text : List Char} {tree : Tree}

theorem isLeaf_wordInteger {n : Int} (h : wordInteger n = .ok tree) : IsLeaf text tree := by
  unfold wordInteger at h
  split at h
  · cases h
    exact .int n
  · cases h

theorem isLeaf_plainTree (h : plainTree text = .ok tree) : IsLeaf text tree := by
  unfold plainTree at h
  split at h
  · cases h
    exact .null
  · split at h
    · cases h
      exact .bool _
    · exact isLeaf_wordInteger h
    · split at h
      · cases h
        exact .float _
      · cases h
        exact .text

theorem isLeaf_fitting {found : Option Tree} (h : fitting found = .ok tree)
    (hfound : ∀ t ∈ found, IsLeaf text t) : IsLeaf text tree := by
  cases found with
  | none => cases h
  | some t =>
    cases h
    exact hfound tree rfl

/-- What a scalar stands for has no parts. -/
theorem isLeaf_scalarTree {p : Properties} {plain : Bool}
    (h : scalarTree p text plain = .ok tree) : IsLeaf text tree := by
  have huntagged : ∀ t, (if plain then plainTree text else .ok (.text (String.ofList text))) =
      (.ok t : Except Fault Tree) → IsLeaf text t := by
    intro t ht
    split at ht
    · exact isLeaf_plainTree ht
    · cases ht
      exact .text
  unfold scalarTree at h
  dsimp only at h
  generalize (if plain then plainTree text else .ok (.text (String.ofList text)) :
    Except Fault Tree) = untagged at h huntagged
  split at h
  · exact huntagged tree h
  · split_ifs at h
    · exact huntagged tree h
    · refine isLeaf_fitting h ?_
      simp only [Option.mem_def, Option.map_eq_some_iff]
      rintro t ⟨b, -, rfl⟩
      exact .bool b
    · split at h
      · exact isLeaf_wordInteger h
      · cases h
    · refine isLeaf_fitting h ?_
      simp only [Option.mem_def, Option.map_eq_some_iff]
      rintro t ⟨x, -, rfl⟩
      exact .float x
    · cases h
      exact .null
    · cases h
    · exact huntagged tree h
    · cases h
      exact .text

theorem IsLeaf.uniqueKeys (h : IsLeaf text tree) : tree.uniqueKeys := by
  cases h <;> rfl

end Scalars

theorem uniqueKeys_underTag {p : Properties} {tree : Tree} (h : tree.uniqueKeys) :
    (underTag p tree).uniqueKeys := by
  unfold underTag
  split
  · simpa using h
  · exact h

section Collections

variable {build : Node → Nat → Except Fault (Tree × Nat)}
  (hbuild : ∀ node left tree rest, build node left = .ok (tree, rest) → tree.uniqueKeys)

include hbuild

theorem uniqueKeys_builtItems {nodes : List Node} {left : Nat} {trees : List Tree} {rest : Nat}
    (h : builtItems build nodes left = .ok (trees, rest)) : ∀ t ∈ trees, t.uniqueKeys := by
  induction nodes generalizing left trees with
  | nil =>
    cases h
    simp
  | cons node more ih =>
    rw [builtItems, bind_eq_ok] at h
    obtain ⟨⟨tree, left'⟩, hnode, h⟩ := h
    rw [bind_eq_ok] at h
    obtain ⟨⟨trees', rest'⟩, hmore, h⟩ := h
    cases h
    exact List.forall_mem_cons.2 ⟨hbuild _ _ _ _ hnode, ih hmore⟩

/-- The keys read so far differ, latest first, and each new one is compared with all of them. -/
theorem uniqueKeys_builtEntries {nodes : List (Node × Node)} {before entries : List Entry}
    {left rest : Nat} (h : builtEntries build nodes before left = .ok (entries, rest))
    (hbefore : (Tree.mapping before.reverse).uniqueKeys) : (Tree.mapping entries).uniqueKeys := by
  induction nodes generalizing before left with
  | nil =>
    cases h
    exact hbefore
  | cons node more ih =>
    obtain ⟨keyNode, valueNode⟩ := node
    rw [builtEntries, bind_eq_ok] at h
    obtain ⟨⟨key, left₁⟩, hkey, h⟩ := h
    dsimp only at h
    split at h
    · cases h
    · rename_i hnew
      rw [bind_eq_ok] at h
      obtain ⟨⟨value, left₂⟩, hvalue, h⟩ := h
      refine ih h ?_
      simp only [uniqueKeys_mapping, List.reverse_cons] at hbefore ⊢
      obtain ⟨hdiffer, hall⟩ := hbefore
      refine ⟨List.pairwise_append.2 ⟨hdiffer, List.pairwise_singleton _ _, ?_⟩, ?_⟩
      · intro earlier he later hl
        obtain rfl := List.mem_singleton.1 hl
        simp only [List.any_eq_true, not_exists, not_and, Bool.not_eq_true] at hnew
        exact hnew earlier (List.mem_reverse.1 he)
      · intro e he
        rcases List.mem_append.1 he with he | he
        · exact hall e he
        · obtain rfl := List.mem_singleton.1 he
          exact ⟨hbuild _ _ _ _ hkey, hbuild _ _ _ _ hvalue⟩

end Collections

theorem uniqueKeys_treeOf {targets : List (Nat × Node)} {depth : Nat} {node : Node} {left : Nat}
    {tree : Tree} {rest : Nat} (h : treeOf targets depth node left = .ok (tree, rest)) :
    tree.uniqueKeys := by
  induction depth generalizing node left tree rest with
  | zero =>
    rw [treeOf, bind_eq_ok] at h
    obtain ⟨⟨found, left'⟩, -, h⟩ := h
    cases found with
    | scalar p text plain =>
      obtain ⟨t, ht, h⟩ := bind_eq_ok.1 h
      cases h
      exact uniqueKeys_underTag (isLeaf_scalarTree ht).uniqueKeys
    | _ => cases h
  | succ depth ih =>
    have hbuild : ∀ node left tree rest, treeOf targets depth node left = .ok (tree, rest) →
        tree.uniqueKeys := fun _ _ _ _ h => ih h
    rw [treeOf, bind_eq_ok] at h
    obtain ⟨⟨found, left'⟩, -, h⟩ := h
    cases found with
    | «alias» number => cases h
    | scalar p text plain =>
      obtain ⟨t, ht, h⟩ := bind_eq_ok.1 h
      cases h
      exact uniqueKeys_underTag (isLeaf_scalarTree ht).uniqueKeys
    | sequence p items =>
      obtain ⟨⟨trees, rest'⟩, hitems, h⟩ := bind_eq_ok.1 h
      cases h
      exact uniqueKeys_underTag (uniqueKeys_sequence.2 (uniqueKeys_builtItems hbuild hitems))
    | mapping p entries =>
      obtain ⟨⟨entries', rest'⟩, hentries, h⟩ := bind_eq_ok.1 h
      cases h
      refine uniqueKeys_underTag (uniqueKeys_builtEntries hbuild hentries ?_)
      simp [KeysDiffer]

end OperatorBundle.Yaml

namespace OperatorBundle.Tree

open OperatorBundle.Yaml

/-- **A tree that is read from a text has no repeated keys.** -/
theorem uniqueKeys_of_ofYaml {text : String} {tree : Tree} (h : ofYaml text = .ok tree) :
    tree.uniqueKeys := by
  rw [ofYaml, bind_eq_ok] at h
  obtain ⟨tokens, -, h⟩ := h
  rw [bind_eq_ok] at h
  obtain ⟨root, -, h⟩ := h
  rw [Node.tree, bind_eq_ok] at h
  obtain ⟨⟨t, left⟩, ht, h⟩ := h
  cases h
  exact uniqueKeys_treeOf ht

end OperatorBundle.Tree
