import OperatorBundle.Proofs.Patch.Run

/-!
Operations carried out in place. The document is held while an operation works on it, and what the
operation has written stays written, also where it fails later. Every operation turns out to fail
only before its first write, so a run in place leaves what `applyPatch` leaves, whether it ends well
or early.
-/

namespace OperatorBundle

/-! ### Work in place -/

/-- Work on a tree that is held in place: what it leaves, and how it ends. What it has written stays
where it fails. -/
abbrev InPlace := Tree → Tree × Except Failure Unit

/-- A tree with another node one segment below, in the place of the one that is there. -/
def Tree.withChild (tree : Tree) (segment : Segment) (child : Tree) : Tree :=
  match tree.changeChild (fun _ => .ok child) Failure.missing segment with
  | .ok changed => changed
  | .error _ => tree

namespace InPlace

/-- One write, of what a check lets through. -/
def write (change : Tree → Except Failure Tree) : InPlace := fun tree =>
  match change tree with
  | .ok changed => (changed, .ok ())
  | .error failure => (tree, .error failure)

/-- Work on the node one segment below, where it stands. What the work leaves there stays there,
also where it fails. -/
def below (segment : Segment) (work : InPlace) : InPlace := fun tree =>
  match tree.child? segment with
  | none => (tree, .error .missing)
  | some child => (tree.withChild segment (work child).1, (work child).2)

/-- Works one after the other, up to the first that fails. -/
def inTurn : List InPlace → InPlace
  | [], tree => (tree, .ok ())
  | work :: more, tree =>
    match work tree with
    | (left, .ok _) => inTurn more left
    | (left, .error failure) => (left, .error failure)

/-- The items of a sequence are changed one after the other, each where it stands. -/
def changeEach (change : Tree → Tree) : InPlace := fun tree =>
  match tree.items? with
  | none => (tree, .error (.mismatch .sequence))
  | some items =>
    inTurn ((List.range items.length).map fun position =>
      below (.index position) (write fun item => .ok (change item))) tree

end InPlace

/-- An action on the parent of its target, in place. -/
def Action.inPlace (action : Action) (last : Segment) : InPlace :=
  match action, last with
  | .set value, .key name => .write (Tree.changeEntries (Tree.insert name value))
  | .set value, last => .below last (.write fun _ => .ok value)
  | .remove, .key name => .write (Tree.changeEntries (Tree.erase name))
  | .remove, .index position => .write (Tree.changeItems fun items => items.eraseIdx position)
  | .remove, .find selector => .write (Tree.changeItems fun items => items.eraseP selector.accepts)
  | .replace old new, last => .below last (.write (Tree.replaceText old new))
  | .setEntries keyField valueField values, last =>
    .below last (.changeEach (Tree.withNamedValue keyField valueField values))

/-- An operation in place. -/
def Operation.inPlace (operation : Operation) : InPlace :=
  match operation.target.splitLast? with
  | some (path, last) => path.foldr InPlace.below (operation.action.inPlace last)
  | none => .write fun _ => .error .noTarget

/-- The run of operations in place, after those that a report tells of. What an operation leaves is
what the next one finds, and what the run leaves if it ends early. -/
def runInPlace (policy : Policy) (report : Report) : List Operation → Tree → PatchRun
  | [], tree => ⟨tree, .ok report⟩
  | operation :: more, tree =>
    if operation.allowed tree then
      match operation.inPlace tree with
      | (left, .ok _) => runInPlace policy (report.push (operation.record .applied)) more left
      | (left, .error failure) =>
        match operation.error? policy failure with
        | some error => ⟨left, .error error⟩
        | none => runInPlace policy (report.push (operation.record .missed)) more left
    else runInPlace policy (report.push (operation.record .skipped)) more tree

/-! ### All or nothing -/

/-- What is around the items of a sequence: its tags. -/
theorem Tree.exists_around {tree : Tree} {items : List Tree} (h : tree.items? = some items) :
    ∃ around : List Tree → Tree, around items = tree ∧
      (∀ change, tree.changeItems change = .ok (around (change items))) ∧
      ∀ others position, (around others).child? (.index position) = others[position]? ∧
        ∀ (f : Tree → Except Failure Tree) (failure : Failure),
          (around others).changeChild f failure (.index position) =
            (changeAt f failure position others).map around := by
  induction tree using Tree.inductionOn with
  | tagged tag content ih =>
    obtain ⟨around, rfl, hitems, hchild⟩ := ih h
    refine ⟨fun others => .tagged tag (around others), rfl, fun change => ?_, ?_⟩
    · rw [changeItems, hitems]
      rfl
    · refine fun others position => ⟨(hchild others position).1, fun f failure => ?_⟩
      rw [changeChild, (hchild others position).2]
      cases changeAt f failure position others <;> rfl
  | sequence found =>
    obtain rfl := Option.some.inj h
    exact ⟨.sequence, rfl, fun _ => rfl, fun _ _ => ⟨rfl, fun _ _ => rfl⟩⟩
  | null | bool | int | float | text | mapping => cases h

theorem Tree.changeItems_of_none {tree : Tree} (h : tree.items? = none)
    (change : List Tree → List Tree) :
    tree.changeItems change = .error (.mismatch .sequence) := by
  induction tree using Tree.inductionOn with
  | tagged tag content ih =>
    rw [changeItems, ih h]
    rfl
  | sequence items => cases h
  | null | bool | int | float | text | mapping => rfl

namespace InPlace

/-- A write one segment below is one write: where it fails, the child is put back as it was. -/
theorem below_write (segment : Segment) (change : Tree → Except Failure Tree) :
    below segment (write change) = write (Tree.changeChild change .missing segment) := by
  funext tree
  unfold below write
  cases hchild : tree.child? segment with
  | none => rw [Tree.changeChild_of_none hchild]
  | some child =>
    obtain ⟨layers, hlayers, hchange⟩ := Tree.exists_layers (ε := Failure) hchild
    have hput (left : Tree) : tree.withChild segment left = Tree.wrap layers left := by
      rw [Tree.withChild, hchange]
      rfl
    simp only [hput, hchange]
    cases change child with
    | ok changed => rfl
    | error failure => exact congrArg (·, _) hlayers

theorem foldr_below_write (path : List Segment) (change : Tree → Except Failure Tree) :
    path.foldr below (write change) = write (Tree.change change .missing path) := by
  induction path with
  | nil => rfl
  | cons segment rest ih => rw [List.foldr_cons, ih, below_write]; rfl

/-- The items of a list are changed from one position on. -/
theorem inTurn_changeAt {change : Tree → Tree} {around : List Tree → Tree}
    (haround : ∀ others position (f : Tree → Except Failure Tree) (failure : Failure),
      (around others).changeChild f failure (.index position) =
        (changeAt f failure position others).map around) (before items : List Tree) :
    inTurn ((List.range' before.length items.length).map fun position =>
        below (.index position) (write fun item => .ok (change item))) (around (before ++ items)) =
      (around (before ++ items.map change), .ok ()) := by
  induction items generalizing before with
  | nil => rfl
  | cons item more ih =>
    have hstep : below (.index before.length) (write fun item => .ok (change item))
        (around (before ++ item :: more)) = (around (before ++ change item :: more), .ok ()) := by
      rw [below_write, write, haround, changeAt_append]
      rfl
    rw [List.length_cons, List.range'_succ, List.map_cons, inTurn, hstep]
    simpa using ih (before ++ [change item])

/-- Changes of all items, one after the other, are one write. -/
theorem changeEach_eq (change : Tree → Tree) :
    changeEach change = write (Tree.changeItems fun items => items.map change) := by
  funext tree
  unfold changeEach
  cases hitems : tree.items? with
  | none => rw [write, Tree.changeItems_of_none hitems]
  | some items =>
    obtain ⟨around, rfl, hchange, hchild⟩ := Tree.exists_around hitems
    rw [write, hchange]
    simp only [List.range_eq_range']
    exact inTurn_changeAt (fun others position => (hchild others position).2) [] items

end InPlace

/-- **An action fails only before its first write.** -/
theorem Action.inPlace_eq (action : Action) (last : Segment) :
    action.inPlace last = .write (action.onParent last) := by
  cases action with
  | set value =>
    cases last with
    | key name => rfl
    | index | find => exact InPlace.below_write _ _
  | remove => cases last <;> rfl
  | replace old new => cases last <;> exact InPlace.below_write _ _
  | setEntries keyField valueField values =>
    cases last <;> exact (congrArg _ (InPlace.changeEach_eq _)).trans (InPlace.below_write _ _)

namespace Operation

theorem inPlace_eq (operation : Operation) : operation.inPlace = .write operation.act := by
  funext tree
  unfold inPlace InPlace.write act
  cases operation.target.splitLast? with
  | none => rfl
  | some split =>
    obtain ⟨path, last⟩ := split
    simp only [Action.inPlace_eq, InPlace.foldr_below_write]
    rfl

/-- An operation that fails leaves what it found. -/
theorem inPlace_of_error {operation : Operation} {tree : Tree} {failure : Failure}
    (h : operation.act tree = .error failure) :
    operation.inPlace tree = (tree, .error failure) := by
  rw [inPlace_eq, InPlace.write, h]

end Operation

/-- **A run in place is a run that drops what a failing operation has made.** -/
theorem runInPlace_eq (policy : Policy) (report : Report) (operations : List Operation)
    (tree : Tree) : runInPlace policy report operations tree =
      runAfter policy report operations tree := by
  induction operations generalizing report tree with
  | nil => rfl
  | cons operation more ih =>
    rw [runInPlace, runAfter, Operation.inPlace_eq, InPlace.write]
    unfold Operation.run
    split_ifs
    · cases operation.act tree with
      | ok changed => exact ih _ changed
      | error failure =>
        cases failure with
        | missing =>
          cases policy with
          | ignore => exact ih _ tree
          | fail => rfl
        | mismatch | noTarget => rfl
    · exact ih _ tree

end OperatorBundle
