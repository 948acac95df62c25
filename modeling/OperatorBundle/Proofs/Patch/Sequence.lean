import OperatorBundle.Proofs.Patch.InPlace

/-!
Runs in sequence. A run of two lists of operations is a run of the first and then, only if that ends
well, a run of the second on the tree that the first left. A run that ends well has a record for
each operation; one that ends early leaves what the operations before the failing one have made.
-/

namespace OperatorBundle

namespace PatchRun

/-- A run whose records come after those of an earlier one. -/
def following (earlier : List Record) (run : PatchRun) : PatchRun :=
  ⟨run.tree, run.result.map fun report => ⟨earlier ++ report.records⟩⟩

/-- A run that goes on, if it ended well, with another on the tree that it left. -/
def andThen (run : PatchRun) (next : Tree → PatchRun) : PatchRun :=
  match run.result with
  | .ok report => (next run.tree).following report.records
  | .error _ => run

@[simp] theorem following_nil (run : PatchRun) : run.following [] = run := by
  obtain ⟨tree, error | report⟩ := run <;> rfl

theorem following_following (first second : List Record) (run : PatchRun) :
    (run.following second).following first = run.following (first ++ second) := by
  obtain ⟨tree, error | report⟩ := run
  · rfl
  · simp [following, Except.map]

theorem following_andThen (earlier : List Record) (run : PatchRun) (next : Tree → PatchRun) :
    (run.andThen next).following earlier = (run.following earlier).andThen next := by
  obtain ⟨tree, error | report⟩ := run
  · rfl
  · exact following_following earlier report.records (next tree)

/-- A run ends as it does after other operations, its records apart. -/
theorem following_eq_error {earlier : List Record} {run : PatchRun} {tree : Tree}
    {error : PatchError} :
    run.following earlier = ⟨tree, .error error⟩ ↔ run = ⟨tree, .error error⟩ := by
  obtain ⟨found, other | report⟩ := run <;> simp [following, Except.map]

end PatchRun

variable {policy : Policy} {operations : List Operation} {tree after : Tree}

/-! ### One run after another -/

theorem runAfter_eq (policy : Policy) (report : Report) (operations : List Operation)
    (tree : Tree) : runAfter policy report operations tree =
      (applyPatch policy operations tree).following report.records := by
  unfold applyPatch
  induction operations generalizing report tree with
  | nil => simp [runAfter, PatchRun.following, Except.map, Report.empty]
  | cons operation more ih =>
    rw [runAfter, runAfter]
    cases operation.run policy tree with
    | error e => rfl
    | ok out =>
      obtain ⟨changed, record⟩ := out
      simp only
      rw [ih (report.push record) changed, ih (Report.empty.push record) changed,
        PatchRun.following_following]
      rfl

/-- The first operation of a run, and the run of the others. -/
theorem applyPatch_cons (operation : Operation) (more : List Operation) (tree : Tree) :
    applyPatch policy (operation :: more) tree =
      match operation.run policy tree with
      | .ok (changed, record) => (applyPatch policy more changed).following [record]
      | .error e => ⟨tree, .error e⟩ := by
  rw [applyPatch, runAfter]
  cases operation.run policy tree with
  | error e => rfl
  | ok out => exact runAfter_eq policy _ more out.1

theorem applyPatch_append (first second : List Operation) (tree : Tree) :
    applyPatch policy (first ++ second) tree =
      (applyPatch policy first tree).andThen (applyPatch policy second) := by
  induction first generalizing tree with
  | nil => exact (PatchRun.following_nil _).symm
  | cons operation more ih =>
    rw [List.cons_append, applyPatch_cons, applyPatch_cons]
    cases operation.run policy tree with
    | error e => rfl
    | ok out => simp only [ih, PatchRun.following_andThen]

/-! ### Records -/

/-- A record tells of its operation. -/
def Record.Tells (operation : Operation) (record : Record) : Prop :=
  record.path = operation.target.text ∧ record.op = operation.action.name

theorem Operation.tells_of_run {operation : Operation} {changed : Tree} {record : Record}
    (h : operation.run policy tree = .ok (changed, record)) : Record.Tells operation record := by
  rcases Operation.run_eq_ok_iff.1 h with ⟨-, -, rfl⟩ | ⟨-, -, rfl⟩ | ⟨-, -, -, -, rfl⟩ <;>
    exact ⟨rfl, rfl⟩

theorem Ran.tells {records : List Record} (h : Ran policy operations tree records after) :
    List.Forall₂ Record.Tells operations records := by
  induction h with
  | nil => exact .nil
  | cons hrun _ ih => exact .cons (Operation.tells_of_run hrun) ih

/-! ### Runs that end early -/

/-- The operation that ends a run, and what the operations before it have made. -/
theorem exists_failed_of_applyPatch {error : PatchError}
    (h : applyPatch policy operations tree = ⟨after, .error error⟩) :
    ∃ before operation later report, operations = before ++ operation :: later ∧
      applyPatch policy before tree = ⟨after, .ok report⟩ ∧
      operation.run policy after = .error error := by
  induction operations generalizing tree with
  | nil => cases h
  | cons operation more ih =>
    rw [applyPatch_cons] at h
    cases hrun : operation.run policy tree with
    | error e =>
      rw [hrun] at h
      cases h
      exact ⟨[], operation, more, .empty, rfl, rfl, hrun⟩
    | ok out =>
      obtain ⟨changed, record⟩ := out
      simp only [hrun, PatchRun.following_eq_error] at h
      obtain ⟨before, failing, later, report, rfl, hbefore, hfails⟩ := ih h
      refine ⟨operation :: before, failing, later, ⟨record :: report.records⟩, rfl, ?_, hfails⟩
      simp only [applyPatch_cons, hrun, hbefore]
      rfl

/-- **Operations run in sequence, each in full or not at all.** A run of two lists is the run of the
first and, only if that ends well, of the second on what it left. A run that ends well has one
record for each operation, in order, and an operation that is not applied leaves the tree as it is.
A run that ends early leaves what the operations before the failing one have made, even if what the
failing one has written were to stay. -/
theorem patch_in_sequence (policy : Policy) :
    (∀ first second tree, applyPatch policy (first ++ second) tree =
      (applyPatch policy first tree).andThen (applyPatch policy second)) ∧
    (∀ operations tree after report, applyPatch policy operations tree = ⟨after, .ok report⟩ →
      List.Forall₂ Record.Tells operations report.records ∧
      report.count .applied + report.count .skipped + report.count .missed =
        operations.length) ∧
    (∀ operations tree after report i operation record,
      applyPatch policy operations tree = ⟨after, .ok report⟩ →
      operations[i]? = some operation → report.records[i]? = some record →
      record.outcome = .skipped ∨ record.outcome = .missed →
      ∃ old, applyPatch policy (operations.take i) tree = ⟨old, .ok ⟨report.records.take i⟩⟩ ∧
        applyPatch policy (operations.take (i + 1)) tree =
          ⟨old, .ok ⟨report.records.take (i + 1)⟩⟩) ∧
    (∀ operations tree after error, applyPatch policy operations tree = ⟨after, .error error⟩ →
      ∃ before operation later report failure, operations = before ++ operation :: later ∧
        applyPatch policy before tree = ⟨after, .ok report⟩ ∧
        operation.inPlace after = (after, .error failure) ∧
        operation.error? policy failure = some error) ∧
    ∀ operations tree, runInPlace policy .empty operations tree =
      applyPatch policy operations tree := by
  refine ⟨applyPatch_append, ?_, ?_, ?_, fun operations tree => runInPlace_eq policy _ _ tree⟩
  · intro operations tree after report h
    have htells := (applyPatch_eq_ok.1 h).tells
    exact ⟨htells, report.count_add_count_add_count.trans htells.length_eq.symm⟩
  · intro operations tree after report i operation record h hoperation hrecord houtcome
    obtain ⟨old, new, hbefore, hrun, hnext⟩ :=
      (applyPatch_eq_ok.1 h).exists_step hoperation hrecord
    rcases Operation.run_cases hrun with ⟨-, rfl⟩ | ⟨rfl, -⟩
    · simp [Operation.record] at houtcome
    · exact ⟨new, applyPatch_eq_ok.2 hbefore, applyPatch_eq_ok.2 hnext⟩
  · intro operations tree after error h
    obtain ⟨before, operation, later, report, hsplit, hbefore, hrun⟩ :=
      exists_failed_of_applyPatch h
    obtain ⟨-, failure, hact, herror⟩ := Operation.run_eq_error_iff.1 hrun
    exact ⟨before, operation, later, report, failure, hsplit, hbefore,
      Operation.inPlace_of_error hact, herror⟩

/-- A document with a name and a list of two settings. -/
def namedSettings : Tree :=
  .mapping [(.text "name", .text "quay"), (.text "env", .sequence [
    .mapping [(.text "name", .text "A")], .mapping [(.text "name", .text "B")]])]

/-- Operations of which the first is applied, the second kept from running, and the third misses its
target. -/
def mixedPatch : List Operation :=
  [.setEntries (.path "env") "name" "value" [("B", "x")],
    ⟨.path "name", .remove, some .ifAbsent⟩, .setText (.path "image.tag") "y"]

/-- The same operations, one that finds a string where it needs a mapping, and one more. -/
def failingPatch : List Operation :=
  mixedPatch ++ [.setText (.path "name.first") "z", .remove (.path "name")]

theorem mixedPatch_in_sequence :
    (∃ after report old, applyPatch .ignore mixedPatch namedSettings = ⟨after, .ok report⟩ ∧
      report.count .applied + report.count .skipped + report.count .missed = 3 ∧
      applyPatch .ignore (mixedPatch.take 2) namedSettings =
        ⟨old, .ok ⟨report.records.take 2⟩⟩ ∧
      applyPatch .ignore (mixedPatch.take 3) namedSettings =
        ⟨old, .ok ⟨report.records.take 3⟩⟩) ∧
    ∃ after before operation later report failure,
      failingPatch = before ++ operation :: later ∧
      applyPatch .ignore before namedSettings = ⟨after, .ok report⟩ ∧
      operation.inPlace after = (after, .error failure) ∧
      operation.error? .ignore failure = some (.typeMismatch "name.first" .mapping) := by
  obtain ⟨-, hrecords, hunchanged, hfailed, -⟩ := patch_in_sequence .ignore
  have hrun : applyPatch .ignore mixedPatch namedSettings = ⟨_, .ok _⟩ := rfl
  have hends : applyPatch .ignore failingPatch namedSettings =
      ⟨_, .error (.typeMismatch "name.first" .mapping)⟩ := rfl
  obtain ⟨old, hsecond, hthird⟩ := hunchanged _ _ _ _ 2 _ _ hrun rfl rfl (.inr rfl)
  exact ⟨⟨_, _, old, hrun, (hrecords _ _ _ _ hrun).2, hsecond, hthird⟩, _, hfailed _ _ _ _ hends⟩

end OperatorBundle
