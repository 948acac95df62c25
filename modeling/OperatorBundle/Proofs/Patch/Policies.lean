import OperatorBundle.Proofs.Patch.Sequence

/-!
The two policies beside each other. The runs under both are one run up to the first operation that
misses its target: there the strict run ends, and the lenient one goes on with the tree as it is.
-/

namespace OperatorBundle

/-- Whether an error tells of a missing target. -/
def PatchError.isMiss : PatchError → Bool
  | .locatorMiss _ => true
  | .typeMismatch _ _ | .emptyLocator => false

/-- Whether no record tells of a missing target. -/
def Report.NoneMissed (report : Report) : Prop :=
  ∀ record ∈ report.records, record.outcome ≠ .missed

/-- Whether a run met no missing target. -/
def PatchRun.MissesNone (run : PatchRun) : Prop :=
  match run.result with
  | .ok report => report.NoneMissed
  | .error error => error.isMiss = false

theorem PatchRun.MissesNone.following {run : PatchRun} {record : Record} (h : run.MissesNone)
    (hrecord : record.outcome ≠ .missed) : (run.following [record]).MissesNone := by
  obtain ⟨tree, error | report⟩ := run
  · exact h
  · exact List.forall_mem_cons.2 ⟨hrecord, h⟩

/-! ### One operation -/

namespace Operation

variable {operation : Operation} {policy : Policy} {tree changed : Tree} {record : Record}
  {error : PatchError}

/-- Whether an operation runs on a tree in which its target is missing. -/
def Misses (operation : Operation) (tree : Tree) : Prop :=
  operation.allowed tree = true ∧ operation.act tree = .error .missing

theorem Misses.run_ignore (h : operation.Misses tree) :
    operation.run .ignore tree = .ok (tree, operation.record .missed) :=
  run_eq_ok_iff.2 (.inr (.inr ⟨h.1, h.2, rfl, rfl, rfl⟩))

theorem Misses.run_fail (h : operation.Misses tree) :
    operation.run .fail tree = .error (.locatorMiss operation.target.text) :=
  run_eq_error_iff.2 ⟨h.1, .missing, h.2, rfl⟩

/-- Only a missing target lets the policies part. -/
theorem run_eq_of_not_misses (h : ¬ operation.Misses tree) (policy other : Policy) :
    operation.run policy tree = operation.run other tree := by
  unfold run
  split_ifs with hallowed
  · cases hact : operation.act tree with
    | ok found => rfl
    | error failure =>
      cases failure with
      | missing => exact absurd ⟨hallowed, hact⟩ h
      | mismatch | noTarget => rfl
  · rfl

theorem outcome_of_not_misses (h : ¬ operation.Misses tree)
    (hrun : operation.run policy tree = .ok (changed, record)) : record.outcome ≠ .missed := by
  rcases run_eq_ok_iff.1 hrun with ⟨-, -, rfl⟩ | ⟨-, -, rfl⟩ | ⟨hallowed, hact, -⟩
  · simp [Operation.record]
  · simp [Operation.record]
  · exact absurd ⟨hallowed, hact⟩ h

theorem isMiss_of_not_misses (h : ¬ operation.Misses tree)
    (hrun : operation.run policy tree = .error error) : error.isMiss = false := by
  obtain ⟨hallowed, failure, hact, herror⟩ := run_eq_error_iff.1 hrun
  cases failure with
  | missing => exact absurd ⟨hallowed, hact⟩ h
  | mismatch | noTarget =>
    obtain rfl := Option.some.inj herror
    rfl

/-- A missing target is no error where it may be missing. -/
theorem isMiss_of_run_ignore (hrun : operation.run .ignore tree = .error error) :
    error.isMiss = false := by
  refine isMiss_of_not_misses (fun h => ?_) hrun
  rw [h.run_ignore] at hrun
  cases hrun

end Operation

/-! ### Runs -/

variable {operations before : List Operation} {operation : Operation} {tree mid after : Tree}
  {report : Report} {error : PatchError}

/-- **Runs under the two policies part at the first missing target**, if there is one. -/
theorem missesNone_or_first (operations : List Operation) (tree : Tree) :
    (∃ run : PatchRun, run.MissesNone ∧ ∀ policy, applyPatch policy operations tree = run) ∨
      ∃ before operation later mid report, operations = before ++ operation :: later ∧
        (∀ policy, applyPatch policy before tree = ⟨mid, .ok report⟩) ∧ report.NoneMissed ∧
        operation.Misses mid := by
  induction operations generalizing tree with
  | nil => exact .inl ⟨⟨tree, .ok .empty⟩, List.forall_mem_nil _, fun _ => rfl⟩
  | cons operation more ih =>
    by_cases hmisses : operation.Misses tree
    · exact .inr ⟨[], operation, more, tree, .empty, rfl, fun _ => rfl, List.forall_mem_nil _,
        hmisses⟩
    have hsame (policy : Policy) := Operation.run_eq_of_not_misses hmisses policy .fail
    cases hrun : operation.run .fail tree with
    | error e =>
      refine .inl ⟨⟨tree, .error e⟩, Operation.isMiss_of_not_misses hmisses hrun, fun policy => ?_⟩
      simp only [applyPatch_cons, hsame, hrun]
    | ok out =>
      obtain ⟨changed, record⟩ := out
      have hrecord := Operation.outcome_of_not_misses hmisses hrun
      have hcons (policy : Policy) (rest : List Operation) :
          applyPatch policy (operation :: rest) tree =
            (applyPatch policy rest changed).following [record] := by
        simp only [applyPatch_cons, hsame, hrun]
      rcases ih changed with ⟨run, hnone, hall⟩ |
        ⟨before, missing, later, mid, report, rfl, hbefore, hnone, hmissing⟩
      · refine .inl ⟨run.following [record], hnone.following hrecord, fun policy => ?_⟩
        rw [hcons, hall]
      · refine .inr ⟨operation :: before, missing, later, mid, ⟨record :: report.records⟩, rfl,
          fun policy => ?_, List.forall_mem_cons.2 ⟨hrecord, hnone⟩, hmissing⟩
        rw [hcons, hbefore]
        rfl

/-- Where a target is missing first, the strict run ends. -/
theorem applyPatch_fail_of_first (hbefore : applyPatch .fail before tree = ⟨mid, .ok report⟩)
    (hmisses : operation.Misses mid) (later : List Operation) :
    applyPatch .fail (before ++ operation :: later) tree =
      ⟨mid, .error (.locatorMiss operation.target.text)⟩ := by
  rw [applyPatch_append, hbefore, PatchRun.andThen]
  simp only [applyPatch_cons, hmisses.run_fail]
  rfl

/-- Where a target is missing first, the lenient run goes on. -/
theorem applyPatch_ignore_of_first (hbefore : applyPatch .ignore before tree = ⟨mid, .ok report⟩)
    (hmisses : operation.Misses mid) (later : List Operation) :
    applyPatch .ignore (before ++ operation :: later) tree =
      (applyPatch .ignore later mid).following (report.records ++ [operation.record .missed]) := by
  rw [applyPatch_append, hbefore, PatchRun.andThen]
  simp only [applyPatch_cons, hmisses.run_ignore, PatchRun.following_following]

/-- The lenient run never ends at a missing target. -/
theorem isMiss_of_applyPatch_ignore
    (h : applyPatch .ignore operations tree = ⟨after, .error error⟩) : error.isMiss = false := by
  obtain ⟨before, operation, later, report, -, -, hrun⟩ := exists_failed_of_applyPatch h
  exact Operation.isMiss_of_run_ignore hrun

theorem Report.NoneMissed.missedPaths_eq (h : report.NoneMissed) : report.missedPaths = [] := by
  have hnone : report.records.filter (fun r => r.outcome = .missed) = [] :=
    List.filter_eq_nil_iff.2 fun record hmem => by simp [h record hmem]
  rw [Report.missedPaths, hnone, List.map_nil]

theorem head?_missedPaths (h : report.NoneMissed) (operation : Operation)
    (records : List Record) :
    (Report.missedPaths ⟨report.records ++ [operation.record .missed] ++ records⟩).head? =
      some operation.target.text := by
  have hpaths := h.missedPaths_eq
  unfold Report.missedPaths at hpaths ⊢
  simp only [List.filter_append, List.map_append, hpaths]
  rfl

/-- How the lenient run goes on after the first missing target: it ends well, and that target is the
first that its report tells of, or an operation later on ends it. -/
theorem ignore_cases_of_first (hbefore : applyPatch .ignore before tree = ⟨mid, .ok report⟩)
    (hnone : report.NoneMissed) (hmisses : operation.Misses mid) (later : List Operation) :
    (∃ final full,
      applyPatch .ignore (before ++ operation :: later) tree = ⟨final, .ok full⟩ ∧
        full.missedPaths.head? = some operation.target.text) ∨
      ∃ final error passed failing rest full,
        applyPatch .ignore (before ++ operation :: later) tree = ⟨final, .error error⟩ ∧
        error.isMiss = false ∧ later = passed ++ failing :: rest ∧
        applyPatch .ignore (before ++ operation :: passed) tree = ⟨final, .ok full⟩ ∧
        failing.run .ignore final = .error error := by
  rw [applyPatch_ignore_of_first hbefore hmisses later]
  cases hlater : applyPatch .ignore later mid with
  | mk final result =>
    cases result with
    | ok rest =>
      exact .inl ⟨final, _, rfl, head?_missedPaths hnone operation rest.records⟩
    | error error =>
      obtain ⟨passed, failing, rest, full, rfl, hpassed, hrun⟩ :=
        exists_failed_of_applyPatch hlater
      have hfull : applyPatch .ignore (before ++ operation :: passed) tree =
          ⟨final, .ok ⟨report.records ++ [operation.record .missed] ++ full.records⟩⟩ := by
        rw [applyPatch_ignore_of_first hbefore hmisses, hpassed]
        rfl
      exact .inr ⟨final, error, passed, failing, rest, _, rfl,
        Operation.isMiss_of_run_ignore hrun, rfl, hfull, hrun⟩

/-- **The strict run and the lenient one agree up to the first missing target.** If the strict run
ends well, or at a node of the wrong kind or an empty locator, the lenient run is the same. If it
ends at a missing target, its tree is the one on which the lenient run misses that target, the first
of those that it misses; the lenient run then ends well or fails at a later operation, but not for
a missing target. A lenient run that ends well without one is the strict run. -/
theorem policies_agree (operations : List Operation) (tree : Tree) :
    (∀ after report, applyPatch .fail operations tree = ⟨after, .ok report⟩ →
      applyPatch .ignore operations tree = ⟨after, .ok report⟩ ∧ report.NoneMissed) ∧
    (∀ after error, applyPatch .fail operations tree = ⟨after, .error error⟩ →
      error.isMiss = false →
      applyPatch .ignore operations tree = ⟨after, .error error⟩) ∧
    (∀ after path, applyPatch .fail operations tree = ⟨after, .error (.locatorMiss path)⟩ →
      ∃ before operation later report, operations = before ++ operation :: later ∧
        operation.target.text = path ∧
        applyPatch .ignore before tree = ⟨after, .ok report⟩ ∧ report.NoneMissed ∧
        operation.run .ignore after = .ok (after, operation.record .missed) ∧
        ((∃ final full, applyPatch .ignore operations tree = ⟨final, .ok full⟩ ∧
            full.missedPaths.head? = some path) ∨
          ∃ final error passed failing rest full,
            applyPatch .ignore operations tree = ⟨final, .error error⟩ ∧
            error.isMiss = false ∧ later = passed ++ failing :: rest ∧
            applyPatch .ignore (before ++ operation :: passed) tree = ⟨final, .ok full⟩ ∧
            failing.run .ignore final = .error error)) ∧
    (∀ after path, applyPatch .ignore operations tree ≠ ⟨after, .error (.locatorMiss path)⟩) ∧
    (∀ after report, applyPatch .ignore operations tree = ⟨after, .ok report⟩ →
      report.NoneMissed → applyPatch .fail operations tree = ⟨after, .ok report⟩) := by
  have hlenient (after : Tree) (path : String)
      (h : applyPatch .ignore operations tree = ⟨after, .error (.locatorMiss path)⟩) : False := by
    cases isMiss_of_applyPatch_ignore h
  rcases missesNone_or_first operations tree with ⟨run, hnone, hall⟩ |
    ⟨before, operation, later, mid, report, rfl, hbefore, hnone, hmisses⟩
  · -- nothing is missing: the runs are one run
    simp only [hall] at hlenient ⊢
    refine ⟨?_, fun after error h _ => h, ?_, hlenient, fun after report h _ => h⟩
    · rintro after report rfl
      exact ⟨rfl, hnone⟩
    · rintro after path rfl
      cases hnone
  · have hstrict := applyPatch_fail_of_first (hbefore .fail) hmisses later
    refine ⟨?_, ?_, ?_, hlenient, ?_⟩
    · intro after found h
      rw [hstrict] at h
      cases h
    · intro after error h herror
      rw [hstrict] at h
      cases h
      cases herror
    · intro after path h
      rw [hstrict] at h
      cases h
      exact ⟨before, operation, later, report, rfl, rfl, hbefore .ignore, hnone,
        hmisses.run_ignore, ignore_cases_of_first (hbefore .ignore) hnone hmisses later⟩
    · intro after full h hfull
      -- the report tells of the missing target
      rcases ignore_cases_of_first (hbefore .ignore) hnone hmisses later with
        ⟨final, found, hfound, hhead⟩ | ⟨final, error, _, _, _, _, herror, -⟩
      · rw [h] at hfound
        cases hfound
        rw [hfull.missedPaths_eq] at hhead
        cases hhead
      · rw [h] at herror
        cases herror

theorem policies_agree_on_failingPatch :
    (∃ after report, applyPatch .ignore (mixedPatch.take 2) namedSettings = ⟨after, .ok report⟩ ∧
      report.NoneMissed ∧
      applyPatch .fail (mixedPatch.take 2) namedSettings = ⟨after, .ok report⟩) ∧
    (∃ after, applyPatch .ignore [.setText (.path "name.first") "z"] namedSettings =
      ⟨after, .error (.typeMismatch "name.first" .mapping)⟩) ∧
    ∃ after before operation later report, failingPatch = before ++ operation :: later ∧
      operation.target.text = "image.tag" ∧
      applyPatch .fail failingPatch namedSettings = ⟨after, .error (.locatorMiss "image.tag")⟩ ∧
      applyPatch .ignore before namedSettings = ⟨after, .ok report⟩ ∧ report.NoneMissed := by
  have hwell : applyPatch .fail (mixedPatch.take 2) namedSettings = ⟨_, .ok _⟩ := rfl
  have hwrong : applyPatch .fail [.setText (.path "name.first") "z"] namedSettings =
      ⟨_, .error (.typeMismatch "name.first" .mapping)⟩ := rfl
  have hmiss : applyPatch .fail failingPatch namedSettings =
      ⟨_, .error (.locatorMiss "image.tag")⟩ := rfl
  obtain ⟨hok, -, -, -, hback⟩ := policies_agree (mixedPatch.take 2) namedSettings
  obtain ⟨hsame, hnone⟩ := hok _ _ hwell
  obtain ⟨-, herror, -⟩ := policies_agree [.setText (.path "name.first") "z"] namedSettings
  obtain ⟨-, -, hfirst, -⟩ := policies_agree failingPatch namedSettings
  obtain ⟨before, operation, later, report, hsplit, hpath, hbefore, hreport, -⟩ :=
    hfirst _ _ hmiss
  exact ⟨⟨_, _, hsame, hnone, hback _ _ hsame hnone⟩, ⟨_, herror _ _ hwrong rfl⟩,
    _, before, operation, later, report, hsplit, hpath, hmiss, hbefore, hreport⟩

end OperatorBundle
