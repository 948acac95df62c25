import OperatorBundle.Proofs.Patch.Outcome
import OperatorBundle.Proofs.Patch.ReadBack

/-!
Guards that ask whether the target is there. A guard follows the whole target; the action finds the
parent of the target and then looks at the last segment by itself. Both agree: an operation that runs
only if its target is there does not miss it, and a value that is set only if its target is not there
can be read at the target from then on.

* `ends_applied_of_present`: where the target is there, a value is set and an entry removed.
* `retrievable_of_absent`: no condition on the way looks at the key that is set.
* `guards_agree`: how guarded operations end.
-/

namespace OperatorBundle

/-! ### Targets that are there -/

namespace Tree

variable {tree found : Tree} {segments path : List Segment} {last : Segment}

/-- The parent of a node that is there. -/
theorem exists_parent_of_resolve? (hsegments : segments = path ++ [last])
    (h : tree.resolve? segments = some found) :
    ∃ parent, tree.resolve? path = some parent ∧ parent.child? last = some found := by
  rw [hsegments, resolve?_append] at h
  obtain ⟨parent, hparent, hchild⟩ := Option.bind_eq_some_iff.1 h
  exact ⟨parent, hparent, by rwa [resolve?_singleton] at hchild⟩

/-- Only a mapping has a key. -/
theorem isOfKind_of_key {name : String} (h : tree.child? (.key name) = some found) :
    tree.isOfKind .mapping := by
  obtain ⟨entries, hentries, -⟩ := Option.bind_eq_some_iff.1 h
  rw [← isSome_entries?, hentries]
  rfl

/-- Only a sequence has an item. -/
theorem isOfKind_of_item (hlast : ∀ name, last ≠ .key name) (h : tree.child? last = some found) :
    tree.isOfKind .sequence := by
  rcases exists_of_child? h with ⟨name, -, -, hkey, -⟩ | ⟨pre, post, hitems, -⟩
  · exact absurd hkey (hlast name)
  · rw [← isSome_items?, hitems]
    rfl

end Tree

namespace Action

variable {action : Action} {last : Segment} {parent found : Tree}

/-- An action that finds what its last segment names does not miss it. -/
theorem ending_ne_missed : action.ending last (some parent) (some found) ≠ .missed := by
  have hkind (kind : NodeKind) (node : Tree) : node.endingAs kind ≠ .missed := by
    unfold Tree.endingAs
    split_ifs <;> simp
  cases action with
  | set value =>
    cases last with
    | key name => exact hkind .mapping parent
    | index | find => simp [ending]
  | remove =>
    cases last with
    | key name => exact hkind .mapping parent
    | index | find => exact hkind .sequence parent
  | replace old new => exact hkind .string found
  | setEntries keyField valueField values => exact hkind .sequence found

/-- A value is set, and an entry or item removed, where there is one. -/
theorem ending_of_present (haction : action.onTarget? = none)
    (h : parent.child? last = some found) :
    action.ending last (some parent) (some found) = .applied := by
  cases action with
  | set value =>
    cases last with
    | key name => exact if_pos (Tree.isOfKind_of_key h)
    | index | find => rfl
  | remove =>
    cases last with
    | key name => exact if_pos (Tree.isOfKind_of_key h)
    | index | find => exact if_pos (Tree.isOfKind_of_item (by simp) h)
  | replace | setEntries => cases haction

end Action

namespace Operation

variable {operation : Operation} {policy : Policy} {tree changed found : Tree}

/-- **An operation that its guard lets run at a target that is there** is applied, if it sets or
removes. -/
theorem ends_applied_of_present (haction : operation.action.onTarget? = none)
    (htarget : operation.target.segments ≠ []) (hallowed : operation.allowed tree = true)
    (hfound : tree.resolve? operation.target.segments = some found) :
    operation.Ends policy tree .applied := by
  obtain hnil | ⟨path, last, hsegments⟩ := List.eq_nil_or_concat' operation.target.segments
  · exact absurd hnil htarget
  obtain ⟨parent, hparent, hchild⟩ := Tree.exists_parent_of_resolve? hsegments hfound
  have hshows := shows_act hsegments tree
  rw [hparent, hfound, Action.ending_of_present haction hchild] at hshows
  exact ends_of_shows hallowed hshows

/-- An operation does not miss a target that is there. -/
theorem act_ne_missing (hfound : tree.resolve? operation.target.segments = some found) :
    operation.act tree ≠ .error .missing := by
  intro hact
  obtain hnil | ⟨path, last, hsegments⟩ := List.eq_nil_or_concat' operation.target.segments
  · rw [act, Locator.splitLast?, hnil] at hact
    cases hact
  obtain ⟨parent, hparent, -⟩ := Tree.exists_parent_of_resolve? hsegments hfound
  have hshows := shows_act hsegments tree
  rw [hparent, hfound, hact] at hshows
  cases hending : operation.action.ending last (some parent) (some found) with
  | applied =>
    rw [hending] at hshows
    obtain ⟨_, hok⟩ := hshows
    cases hok
  | missed => exact Action.ending_ne_missed hending
  | mismatched =>
    rw [hending] at hshows
    cases hshows

/-- Whether an operation neither passes over a missing target nor ends a run for it. -/
structure NeverMisses (operation : Operation) (policy : Policy) (tree : Tree) : Prop where
  record : ∀ changed record, operation.run policy tree = .ok (changed, record) →
    record.outcome ≠ .missed
  error : ∀ place, operation.run policy tree ≠ .error (.locatorMiss place)

/-- An operation that runs only if its target is there does not miss it. -/
theorem neverMisses_of_ifPresent (hguard : operation.guard = some .ifPresent) :
    operation.NeverMisses policy tree := by
  have hpresent (hallowed : operation.allowed tree = true) :
      operation.act tree ≠ .error .missing := by
    have hsome : (tree.resolve? operation.target.segments).isSome := by
      simpa [allowed, hguard, Guard.allows] using hallowed
    obtain ⟨found, hfound⟩ := Option.isSome_iff_exists.1 hsome
    exact act_ne_missing hfound
  constructor
  · intro changed record hrun
    rcases run_eq_ok_iff.1 hrun with ⟨-, -, rfl⟩ | ⟨-, -, rfl⟩ | ⟨hallowed, hact, -⟩
    · simp [Operation.record]
    · simp [Operation.record]
    · exact absurd hact (hpresent hallowed)
  · intro place hrun
    obtain ⟨hallowed, failure, hact, herror⟩ := run_eq_error_iff.1 hrun
    cases failure with
    | missing => exact hpresent hallowed hact
    | mismatch | noTarget => simp [error?] at herror

/-! ### Targets that are not there -/

/-- A value that is set where nothing is is set at a key. -/
theorem exists_key_of_set {value : Tree} (haction : operation.action = .set value)
    (hact : operation.act tree = .ok changed)
    (hnone : tree.resolve? operation.target.segments = none) :
    ∃ path name, operation.target.segments = path ++ [.key name] := by
  obtain hnil | ⟨path, last, hsegments⟩ := List.eq_nil_or_concat' operation.target.segments
  · exact absurd hnil (target_ne_nil_of_act hact)
  have hshows := shows_act hsegments tree
  rw [haction, hnone, hact] at hshows
  cases last with
  | key name => exact ⟨path, name, hsegments⟩
  | index | find => cases hparent : tree.resolve? path <;> rw [hparent] at hshows <;> cases hshows

end Operation

/-- A condition right above a key that is not there looks at another key. -/
theorem Tree.retrievable_of_absent {tree parent value : Tree} {path : List Segment} {name : String}
    (hparent : tree.resolve? path = some parent) (hnone : parent.child? (.key name) = none) :
    value.Retrievable path (.key name) := by
  refine .key fun above selector habove hfield => ?_
  obtain ⟨outer, -, hitem⟩ := exists_parent_of_resolve? habove hparent
  -- the parent was picked, so it has the field
  obtain ⟨_, -, -, hkey, -⟩ | ⟨pre, post, -, hpicks⟩ := exists_of_child? hitem
  · cases hkey
  · obtain ⟨found, -, hfound, -⟩ := Selector.accepts_iff.1 hpicks.1
    rw [hfield] at hfound
    rw [child?, hfound] at hnone
    cases hnone

namespace Operation

variable {operation : Operation} {policy : Policy} {tree changed value : Tree} {record : Record}

/-- **A value that is set where there was none** is found at its locator. -/
theorem resolve?_of_set_absent (haction : operation.action = .set value)
    (hact : operation.act tree = .ok changed)
    (hnone : tree.resolve? operation.target.segments = none) :
    changed.resolve? operation.target.segments = some value := by
  obtain ⟨path, name, hsegments⟩ := exists_key_of_set haction hact hnone
  rw [act_of_segments hsegments, haction] at hact
  obtain ⟨-, parent, -, -, hparent, -, -⟩ := Tree.exists_between_of_change hact
  rw [hsegments, Tree.resolve?_append, hparent, Option.bind_some, Tree.resolve?_singleton] at hnone
  have hplace : value.Retrievable path (.key name) := Tree.retrievable_of_absent hparent hnone
  obtain ⟨_, next, _, hnext, hset⟩ := (Tree.changed_of_set hplace hact).exists_leaf
  rw [hsegments, Tree.resolve?_append, hnext, Option.bind_some, Tree.resolve?_singleton]
  exact (Action.child?_of_set hplace hset).1

/-- An operation that leaves a tree as it is does so however often it runs. -/
theorem applyPatch_replicate (h : operation.run policy tree = .ok (tree, record)) (n : Nat) :
    applyPatch policy (List.replicate n operation) tree =
      ⟨tree, .ok ⟨List.replicate n record⟩⟩ := by
  refine applyPatch_eq_ok.2 ?_
  induction n with
  | zero => exact .nil tree
  | succ n ih => exact .cons h ih

end Operation

/-- **Guards agree with what operations do.** An operation that runs only if its target is there is
skipped where it is not, and changes nothing; where it is there, a value is set and an entry or item
removed without a miss or an error, and no other action misses it. A value that is set only if its
target is not there is set at a key, is found at its locator then, whatever conditions are on the
way, and every later run of the operation is skipped and changes nothing. -/
theorem guards_agree (policy : Policy) (operation : Operation) (tree : Tree) :
    (operation.guard = some .ifPresent → operation.target.segments ≠ [] →
      ((∃ value, operation.action = .set value) ∨ operation.action = .remove →
        tree.resolve? operation.target.segments = none ∧
            operation.run policy tree = .ok (tree, operation.record .skipped) ∨
          (tree.resolve? operation.target.segments).isSome ∧
            operation.Ends policy tree .applied) ∧
      operation.NeverMisses policy tree) ∧
    ∀ value changed record, operation.guard = some .ifAbsent → operation.action = .set value →
      operation.run policy tree = .ok (changed, record) → record.outcome = .applied →
      (∃ path name, operation.target.segments = path ++ [.key name]) ∧
      changed.resolve? operation.target.segments = some value ∧
      ∀ (later : Policy) (n : Nat), applyPatch later (List.replicate n operation) changed =
        ⟨changed, .ok ⟨List.replicate n (operation.record .skipped)⟩⟩ := by
  constructor
  · intro hguard htarget
    refine ⟨fun haction => ?_, Operation.neverMisses_of_ifPresent hguard⟩
    have honTarget : operation.action.onTarget? = none := by
      rcases haction with ⟨value, haction⟩ | haction <;> rw [haction] <;> rfl
    cases hfound : tree.resolve? operation.target.segments with
    | none =>
      have hskipped : operation.allowed tree = false := by
        simp [Operation.allowed, hguard, Guard.allows, hfound]
      exact .inl ⟨rfl, Operation.run_eq_ok_iff.2 (.inl ⟨hskipped, rfl, rfl⟩)⟩
    | some found =>
      have hallowed : operation.allowed tree = true := by
        simp [Operation.allowed, hguard, Guard.allows, hfound]
      exact .inr ⟨rfl, Operation.ends_applied_of_present honTarget htarget hallowed hfound⟩
  · intro value changed record hguard haction hrun happlied
    obtain ⟨hallowed, hact, -⟩ := (Operation.run_eq_applied_iff happlied).1 hrun
    have hnone : tree.resolve? operation.target.segments = none := by
      simpa [Operation.allowed, hguard, Guard.allows] using hallowed
    have hthere := Operation.resolve?_of_set_absent haction hact hnone
    have hskipped : operation.allowed changed = false := by
      simp [Operation.allowed, hguard, Guard.allows, hthere]
    exact ⟨Operation.exists_key_of_set haction hact hnone, hthere, fun later n =>
      Operation.applyPatch_replicate (Operation.run_eq_ok_iff.2 (.inl ⟨hskipped, rfl, rfl⟩)) n⟩

/-- A label for the first container with the word in its name, if it has none. -/
def labelIfAbsent : Operation :=
  ⟨⟨[.key "containers", .find ⟨"name", .contains "quay"⟩, .key "label"]⟩, .set (.text "new"),
    some .ifAbsent⟩

/-- A document with two such containers. -/
def quayContainers : Tree :=
  let container (name : String) := Tree.mapping [(.text "name", .text name)]
  .mapping [(.text "containers", .sequence [container "a-quay", container "b-quay"])]

theorem guards_agree_on_labels :
    (∃ changed,
      labelIfAbsent.run .fail quayContainers = .ok (changed, labelIfAbsent.record .applied) ∧
      changed.resolve? labelIfAbsent.target.segments = some (.text "new") ∧
      applyPatch .fail (List.replicate 2 labelIfAbsent) changed =
        ⟨changed, .ok ⟨List.replicate 2 (labelIfAbsent.record .skipped)⟩⟩) ∧
    { labelIfAbsent with guard := some .ifPresent, action := .remove }.run .fail quayContainers =
      .ok (quayContainers, ⟨labelIfAbsent.target.text, "remove", .skipped⟩) := by
  have hrun : labelIfAbsent.run .fail quayContainers = .ok (_, labelIfAbsent.record .applied) := rfl
  obtain ⟨-, hthere, hlater⟩ := (guards_agree .fail labelIfAbsent quayContainers).2
    _ _ _ rfl rfl hrun rfl
  refine ⟨⟨_, hrun, hthere, hlater .fail 2⟩, ?_⟩
  rcases ((guards_agree .fail { labelIfAbsent with guard := some .ifPresent, action := .remove }
    quayContainers).1 rfl (by simp [labelIfAbsent])).1 (.inr rfl) with ⟨-, hskipped⟩ | ⟨hsome, -⟩
  · exact hskipped
  · cases hsome

end OperatorBundle
