import OperatorBundle.Proofs.Locator.Change
import OperatorBundle.Proofs.Yaml.DistinctKeys

/-!
How deep the collections of a tree nest, and the tree of a node below other collections. Aliases and
the limit of depth only stop a tree from being built: where one is built, it is the same with more
aliases left, and at any depth that holds it.

* `treeOf_of_nesting_le`: the same tree at another depth and with more aliases left.
* `nesting_le_of_treeOf`: no tree nests deeper than it may.
* `tree_item_iff`: the tree of a sequence of one item.
-/

namespace OperatorBundle.Tree

mutual
/-- How many collections stand around the innermost part of a tree, at most. -/
def nesting : Tree → Nat
  | .sequence items => nestingOfItems items + 1
  | .mapping entries => nestingOfEntries entries + 1
  | .tagged _ content => nesting content
  | _ => 0

/-- The greatest nesting of items. -/
def nestingOfItems : List Tree → Nat
  | [] => 0
  | item :: more => max (nesting item) (nestingOfItems more)

/-- The greatest nesting of keys and values. -/
def nestingOfEntries : List (Tree × Tree) → Nat
  | [] => 0
  | (key, value) :: more => max (max (nesting key) (nesting value)) (nestingOfEntries more)
end

theorem nestingOfItems_le {items : List Tree} {depth : Nat} :
    nestingOfItems items ≤ depth ↔ ∀ item ∈ items, item.nesting ≤ depth := by
  induction items with
  | nil => simp [nestingOfItems]
  | cons item more ih => rw [nestingOfItems, Nat.max_le, ih, List.forall_mem_cons]

theorem nestingOfEntries_le {entries : List (Tree × Tree)} {depth : Nat} :
    nestingOfEntries entries ≤ depth ↔
      ∀ e ∈ entries, e.1.nesting ≤ depth ∧ e.2.nesting ≤ depth := by
  induction entries with
  | nil => simp [nestingOfEntries]
  | cons e more ih =>
    rw [nestingOfEntries, Nat.max_le, Nat.max_le, ih, List.forall_mem_cons]

end OperatorBundle.Tree

namespace OperatorBundle.Yaml

open OperatorBundle.Tree

theorem IsLeaf.nesting {text : List Char} {tree : Tree} (h : IsLeaf text tree) :
    tree.nesting = 0 := by
  cases h <;> rfl

theorem nesting_underTag (p : Properties) (tree : Tree) :
    (underTag p tree).nesting = tree.nesting := by
  unfold underTag
  split <;> simp [Tree.nesting]

theorem follow_add {targets : List (Nat × Node)} {left left' : Nat} {node found : Node}
    (h : follow targets left node = .ok (found, left')) (more : Nat) :
    follow targets (left + more) node = .ok (found, left' + more) := by
  cases node with
  | «alias» number =>
    cases hlookup : targets.lookup number with
    | none => simp [follow, hlookup] at h
    | some target =>
      cases left with
      | zero => simp [follow, hlookup] at h
      | succ left =>
        simp only [follow, hlookup, Except.ok.injEq, Prod.mk.injEq] at h
        obtain ⟨rfl, rfl⟩ := h
        simp [follow, hlookup, Nat.add_right_comm]
  | scalar | sequence | mapping =>
    cases h
    rfl

section Collections

variable {build build' : Node → Nat → Except Fault (Tree × Nat)} {depth more : Nat}
  (hbuild : ∀ node left tree left', build node left = .ok (tree, left') → tree.nesting ≤ depth →
    build' node (left + more) = .ok (tree, left' + more))

include hbuild

theorem builtItems_of_nesting_le {nodes : List Node} {left left' : Nat} {trees : List Tree}
    (h : builtItems build nodes left = .ok (trees, left'))
    (hnesting : ∀ tree ∈ trees, tree.nesting ≤ depth) :
    builtItems build' nodes (left + more) = .ok (trees, left' + more) := by
  induction nodes generalizing left trees with
  | nil =>
    cases h
    rfl
  | cons node rest ih =>
    rw [builtItems, bind_eq_ok] at h
    obtain ⟨⟨tree, left₁⟩, hnode, h⟩ := h
    rw [bind_eq_ok] at h
    obtain ⟨⟨trees', left₂⟩, hrest, h⟩ := h
    cases h
    obtain ⟨htree, htrees⟩ := List.forall_mem_cons.1 hnesting
    rw [builtItems, hbuild _ _ _ _ hnode htree]
    dsimp only [bind, Except.bind]
    rw [ih hrest htrees]

omit hbuild in
/-- The entries read so far are among those of the mapping. -/
theorem mem_of_builtEntries {nodes : List (Node × Node)} {before entries : List Entry}
    {left left' : Nat} (h : builtEntries build nodes before left = .ok (entries, left')) :
    ∀ e ∈ before, e ∈ entries := by
  induction nodes generalizing before left with
  | nil =>
    cases h
    simp
  | cons node rest ih =>
    obtain ⟨keyNode, valueNode⟩ := node
    rw [builtEntries, bind_eq_ok] at h
    obtain ⟨⟨key, left₁⟩, hkey, h⟩ := h
    dsimp only at h
    split at h
    · cases h
    · rw [bind_eq_ok] at h
      obtain ⟨⟨value, left₂⟩, hvalue, h⟩ := h
      exact fun e he => ih h e (List.mem_cons_of_mem _ he)

theorem builtEntries_of_nesting_le {nodes : List (Node × Node)} {before entries : List Entry}
    {left left' : Nat} (h : builtEntries build nodes before left = .ok (entries, left'))
    (hnesting : ∀ e ∈ entries, e.1.nesting ≤ depth ∧ e.2.nesting ≤ depth) :
    builtEntries build' nodes before (left + more) = .ok (entries, left' + more) := by
  induction nodes generalizing before left with
  | nil =>
    cases h
    rfl
  | cons node rest ih =>
    obtain ⟨keyNode, valueNode⟩ := node
    rw [builtEntries, bind_eq_ok] at h
    obtain ⟨⟨key, left₁⟩, hkey, h⟩ := h
    dsimp only at h
    split at h
    · cases h
    · rename_i hnew
      rw [bind_eq_ok] at h
      obtain ⟨⟨value, left₂⟩, hvalue, h⟩ := h
      obtain ⟨hkeyNesting, hvalueNesting⟩ :=
        hnesting _ (mem_of_builtEntries h (key, value) List.mem_cons_self)
      rw [builtEntries, hbuild _ _ _ _ hkey hkeyNesting]
      dsimp only [bind, Except.bind]
      rw [if_neg hnew, hbuild _ _ _ _ hvalue hvalueNesting]
      exact ih h

end Collections

/-- **The tree of a node** is the same at any depth that holds it, with more aliases left. -/
theorem treeOf_of_nesting_le {targets : List (Nat × Node)} {depth depth' : Nat} {node : Node}
    {left left' : Nat} {tree : Tree} (h : treeOf targets depth node left = .ok (tree, left'))
    (hnesting : tree.nesting ≤ depth') (more : Nat) :
    treeOf targets depth' node (left + more) = .ok (tree, left' + more) := by
  induction depth generalizing depth' node left left' tree with
  | zero =>
    rw [treeOf, bind_eq_ok] at h
    obtain ⟨⟨found, left₁⟩, hfollow, h⟩ := h
    cases found with
    | scalar p text plain =>
      obtain ⟨t, ht, h⟩ := bind_eq_ok.1 h
      cases h
      rw [treeOf, follow_add hfollow]
      dsimp only [bind, Except.bind]
      rw [ht]
    | _ => cases h
  | succ depth ih =>
    have hbuild (depth' : Nat) (node : Node) (left : Nat) (tree : Tree) (left' : Nat) :
        treeOf targets depth node left = .ok (tree, left') → tree.nesting ≤ depth' →
          treeOf targets depth' node (left + more) = .ok (tree, left' + more) := ih
    rw [treeOf, bind_eq_ok] at h
    obtain ⟨⟨found, left₁⟩, hfollow, h⟩ := h
    rw [treeOf, follow_add hfollow]
    cases found with
    | «alias» number => cases h
    | scalar p text plain =>
      obtain ⟨t, ht, h⟩ := bind_eq_ok.1 h
      cases h
      dsimp only [bind, Except.bind]
      rw [ht]
    | sequence p items =>
      obtain ⟨⟨trees, left₂⟩, hitems, h⟩ := bind_eq_ok.1 h
      cases h
      rw [nesting_underTag, Tree.nesting] at hnesting
      obtain ⟨depth', rfl⟩ := Nat.exists_eq_add_of_le' (Nat.lt_of_lt_of_le (Nat.succ_pos _) hnesting)
      have hitems' := builtItems_of_nesting_le (hbuild depth') hitems
        (nestingOfItems_le.1 (Nat.le_of_succ_le_succ hnesting))
      dsimp only [bind, Except.bind]
      rw [hitems']
    | mapping p entries =>
      obtain ⟨⟨entries', left₂⟩, hentries, h⟩ := bind_eq_ok.1 h
      cases h
      rw [nesting_underTag, Tree.nesting] at hnesting
      obtain ⟨depth', rfl⟩ := Nat.exists_eq_add_of_le' (Nat.lt_of_lt_of_le (Nat.succ_pos _) hnesting)
      have hentries' := builtEntries_of_nesting_le (hbuild depth') hentries
        (nestingOfEntries_le.1 (Nat.le_of_succ_le_succ hnesting))
      dsimp only [bind, Except.bind]
      rw [hentries']

section Depth

variable {build : Node → Nat → Except Fault (Tree × Nat)} {depth : Nat}
  (hbuild : ∀ node left tree left', build node left = .ok (tree, left') → tree.nesting ≤ depth)

include hbuild

theorem nesting_le_of_builtItems {nodes : List Node} {left left' : Nat} {trees : List Tree}
    (h : builtItems build nodes left = .ok (trees, left')) :
    ∀ tree ∈ trees, tree.nesting ≤ depth := by
  induction nodes generalizing left trees with
  | nil =>
    cases h
    simp
  | cons node rest ih =>
    obtain ⟨⟨tree, left₁⟩, hnode, h⟩ := bind_eq_ok.1 h
    obtain ⟨⟨trees', left₂⟩, hrest, h⟩ := bind_eq_ok.1 h
    cases h
    exact List.forall_mem_cons.2 ⟨hbuild _ _ _ _ hnode, ih hrest⟩

theorem nesting_le_of_builtEntries {nodes : List (Node × Node)} {before entries : List Entry}
    {left left' : Nat} (h : builtEntries build nodes before left = .ok (entries, left'))
    (hbefore : ∀ e ∈ before, e.1.nesting ≤ depth ∧ e.2.nesting ≤ depth) :
    ∀ e ∈ entries, e.1.nesting ≤ depth ∧ e.2.nesting ≤ depth := by
  induction nodes generalizing before left with
  | nil =>
    cases h
    simpa using hbefore
  | cons node rest ih =>
    obtain ⟨keyNode, valueNode⟩ := node
    obtain ⟨⟨key, left₁⟩, hkey, h⟩ := bind_eq_ok.1 h
    dsimp only at h
    split at h
    · cases h
    · obtain ⟨⟨value, left₂⟩, hvalue, h⟩ := bind_eq_ok.1 h
      exact ih h (List.forall_mem_cons.2 ⟨⟨hbuild _ _ _ _ hkey, hbuild _ _ _ _ hvalue⟩, hbefore⟩)

end Depth

/-- A tree that is built nests no deeper than it may. -/
theorem nesting_le_of_treeOf {targets : List (Nat × Node)} {depth : Nat} {node : Node}
    {left left' : Nat} {tree : Tree} (h : treeOf targets depth node left = .ok (tree, left')) :
    tree.nesting ≤ depth := by
  induction depth generalizing node left left' tree with
  | zero =>
    rw [treeOf, bind_eq_ok] at h
    obtain ⟨⟨found, left₁⟩, -, h⟩ := h
    cases found with
    | scalar p text plain =>
      obtain ⟨t, ht, h⟩ := bind_eq_ok.1 h
      cases h
      exact Nat.le_of_eq ((nesting_underTag p t).trans (isLeaf_scalarTree ht).nesting)
    | _ => cases h
  | succ depth ih =>
    rw [treeOf, bind_eq_ok] at h
    obtain ⟨⟨found, left₁⟩, -, h⟩ := h
    have hbuild (node : Node) (left : Nat) (tree : Tree) (left' : Nat) :
        treeOf targets depth node left = .ok (tree, left') → tree.nesting ≤ depth := ih
    cases found with
    | «alias» number => cases h
    | scalar p text plain =>
      obtain ⟨t, ht, h⟩ := bind_eq_ok.1 h
      cases h
      rw [nesting_underTag, (isLeaf_scalarTree ht).nesting]
      exact Nat.zero_le _
    | sequence p items =>
      obtain ⟨⟨trees, left₂⟩, hitems, h⟩ := bind_eq_ok.1 h
      cases h
      rw [nesting_underTag, Tree.nesting]
      exact Nat.succ_le_succ (nestingOfItems_le.2 (nesting_le_of_builtItems hbuild hitems))
    | mapping p entries =>
      obtain ⟨⟨entries', left₂⟩, hentries, h⟩ := bind_eq_ok.1 h
      cases h
      rw [nesting_underTag, Tree.nesting]
      exact Nat.succ_le_succ
        (nestingOfEntries_le.2 (nesting_le_of_builtEntries hbuild hentries (by simp)))

/-- The trees of a sequence of one item are built as the trees of the item are, one level down and
with more aliases left. -/
theorem tree_item_eq (item : Node) :
    (Node.sequence .none [item]).tree =
      (treeOf item.anchored.reverse (depthLimit - 1) item
        (aliasesPerSize * item.size + aliasesPerSize * 2)).map fun built => .sequence [built.1] := by
  have hanchored : (Node.sequence .none [item]).anchored = item.anchored := by
    simp [Node.anchored, Node.anchoredItems, Node.named, Properties.none]
  have hsize : aliasesPerSize * (Node.sequence .none [item]).size =
      aliasesPerSize * item.size + aliasesPerSize * 2 := by
    simp [Node.size, Node.sizeItems, Nat.mul_add]
  obtain ⟨depth, hdepth⟩ : ∃ depth, depthLimit = depth + 1 := ⟨127, rfl⟩
  rw [Node.tree, hanchored, hsize, hdepth, Nat.add_sub_cancel, treeOf]
  dsimp only [follow, bind, Except.bind]
  rw [builtItems]
  dsimp only [bind, Except.bind]
  cases treeOf item.anchored.reverse depth item _ <;> rfl

/-- **The tree of a sequence of one item**, which nests one deeper. -/
theorem tree_item_iff {item : Node} {tree read : Tree} (h : item.tree = .ok tree) :
    (Node.sequence .none [item]).tree = .ok read ↔
      tree.nesting < depthLimit ∧ read = .sequence [tree] := by
  rw [Node.tree, bind_eq_ok] at h
  obtain ⟨⟨t, left⟩, ht, h⟩ := h
  cases h
  rw [tree_item_eq, map_eq_ok]
  constructor
  · rintro ⟨⟨inner, left'⟩, hinner, rfl⟩
    have hlimit : inner.nesting ≤ depthLimit - 1 := nesting_le_of_treeOf hinner
    -- both are built with as many aliases left, at a depth that holds them
    have hitem := treeOf_of_nesting_le ht (nesting_le_of_treeOf ht) (aliasesPerSize * 2)
    have hinner' := treeOf_of_nesting_le hinner (Nat.le_trans hlimit (Nat.sub_le depthLimit 1)) 0
    obtain ⟨rfl, -⟩ := Prod.mk.inj (Except.ok.inj (hitem.symm.trans hinner'))
    exact ⟨Nat.lt_of_le_pred (by decide) hlimit, rfl⟩
  · rintro ⟨hnesting, rfl⟩
    exact ⟨_, treeOf_of_nesting_le ht (Nat.le_pred_of_lt hnesting) (aliasesPerSize * 2), rfl⟩

end OperatorBundle.Yaml
