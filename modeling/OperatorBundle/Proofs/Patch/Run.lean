import OperatorBundle.Manifest
import OperatorBundle.Proofs.Patch.Spot

/-!
Runs that end well. Where the targets of the operations part at keys, none of them disturbs another:
each finds at its target what stood there at the start, and what it leaves there stands there at
the end.
-/

namespace OperatorBundle

open OperatorBundle.Text

/-- A run that ends well: operations, the tree they start on, their records, and the tree they
leave. -/
inductive Ran (policy : Policy) : List Operation → Tree → List Record → Tree → Prop
  | nil (tree : Tree) : Ran policy [] tree [] tree
  | cons {operation : Operation} {more : List Operation} {tree changed after : Tree}
      {record : Record} {records : List Record}
      (hrun : operation.run policy tree = .ok (changed, record))
      (hmore : Ran policy more changed records after) :
    Ran policy (operation :: more) tree (record :: records) after

variable {policy : Policy} {operations : List Operation} {tree after : Tree}
  {records : List Record}

theorem runAfter_eq_ok {report final : Report} :
    runAfter policy report operations tree = ⟨after, .ok final⟩ ↔
      ∃ records, Ran policy operations tree records after ∧
        final.records = report.records ++ records := by
  induction operations generalizing tree report with
  | nil =>
    constructor
    · intro h
      obtain ⟨rfl, hfinal⟩ := PatchRun.mk.inj h
      obtain rfl := Except.ok.inj hfinal
      exact ⟨[], .nil tree, by simp⟩
    · rintro ⟨records, hran, hfinal⟩
      cases hran with
      | nil =>
        obtain rfl : final = report := by
          cases final
          cases report
          simpa using hfinal
        rfl
  | cons operation more ih =>
    rw [runAfter]
    constructor
    · intro h
      cases hrun : operation.run policy tree with
      | error e => simp [hrun] at h
      | ok out =>
        obtain ⟨changed, record⟩ := out
        rw [hrun] at h
        obtain ⟨records, hran, hfinal⟩ := ih.1 h
        exact ⟨record :: records, .cons hrun hran, by simpa [Report.push] using hfinal⟩
    · rintro ⟨records, hran, hfinal⟩
      cases hran with
      | cons hrun hmore =>
        rw [hrun]
        exact ih.2 ⟨_, hmore, by simpa [Report.push] using hfinal⟩

/-- The runs of `applyPatch` that end well. -/
theorem applyPatch_eq_ok {report : Report} :
    applyPatch policy operations tree = ⟨after, .ok report⟩ ↔
      Ran policy operations tree report.records after := by
  rw [applyPatch, runAfter_eq_ok]
  simp [Report.empty]

/-- The patches of a manifest that end well; the text it was read from stays. -/
theorem Manifest.patch_eq_ok {manifest patched : Manifest} {report : Report} :
    manifest.patch policy operations = (patched, .ok report) ↔
      Ran policy operations manifest.root report.records patched.root ∧
        patched.source = manifest.source := by
  rw [← applyPatch_eq_ok, Manifest.patch]
  obtain ⟨root, source⟩ := manifest
  obtain ⟨root', source'⟩ := patched
  cases applyPatch policy operations root with
  | mk changed result =>
    simp only [Prod.ext_iff, Manifest.mk.injEq, PatchRun.mk.injEq]
    tauto

theorem ran_append {first second : List Operation} :
    Ran policy (first ++ second) tree records after ↔
      ∃ mid before later, Ran policy first tree before mid ∧ Ran policy second mid later after ∧
        records = before ++ later := by
  induction first generalizing tree records with
  | nil =>
    constructor
    · intro h
      exact ⟨tree, [], records, .nil tree, h, rfl⟩
    · rintro ⟨mid, before, later, hfirst, hsecond, rfl⟩
      cases hfirst
      exact hsecond
  | cons operation more ih =>
    constructor
    · intro h
      cases h with
      | cons hrun hmore =>
        obtain ⟨mid, before, later, hfirst, hsecond, rfl⟩ := ih.1 hmore
        exact ⟨mid, _ :: before, later, .cons hrun hfirst, hsecond, rfl⟩
    · rintro ⟨mid, before, later, hfirst, hsecond, rfl⟩
      cases hfirst with
      | cons hrun hmore => exact .cons hrun (ih.2 ⟨mid, _, later, hmore, hsecond, rfl⟩)

/-- The step of one operation in a run. -/
theorem Ran.exists_step {operation : Operation} {record : Record} {i : Nat}
    (hran : Ran policy operations tree records after) (hoperation : operations[i]? = some operation)
    (hrecord : records[i]? = some record) :
    ∃ old new, Ran policy (operations.take i) tree (records.take i) old ∧
      operation.run policy old = .ok (new, record) ∧
      Ran policy (operations.take (i + 1)) tree (records.take (i + 1)) new := by
  induction hran generalizing i with
  | nil => simp at hoperation
  | cons hrun hmore ih =>
    cases i with
    | zero =>
      obtain rfl := Option.some.inj hoperation
      obtain rfl := Option.some.inj hrecord
      exact ⟨_, _, .nil _, hrun, .cons hrun (.nil _)⟩
    | succ i =>
      obtain ⟨old, new, hbefore, hstep, hnext⟩ := ih hoperation hrecord
      exact ⟨old, new, .cons hrun hbefore, hstep, .cons hrun hnext⟩

namespace Operation

variable {operation : Operation} {changed : Tree} {record : Record}

/-- How an operation ends well: its guard keeps it from running, it is applied, or its target is
missing and may be. -/
theorem run_eq_ok_iff :
    operation.run policy tree = .ok (changed, record) ↔
      (operation.allowed tree = false ∧ changed = tree ∧ record = operation.record .skipped) ∨
      (operation.allowed tree = true ∧ operation.act tree = .ok changed ∧
        record = operation.record .applied) ∨
      (operation.allowed tree = true ∧ operation.act tree = .error .missing ∧ policy = .ignore ∧
        changed = tree ∧ record = operation.record .missed) := by
  unfold run
  split_ifs with hallowed
  · cases operation.act tree with
    | ok found => simp [hallowed, eq_comm]
    | error failure =>
      cases failure with
      | missing => cases policy <;> simp [hallowed, eq_comm]
      | mismatch | noTarget => simp [hallowed]
  · simp [hallowed, eq_comm]

/-- The error that ends a run where an operation fails; a missing target may be passed over. -/
def error? (policy : Policy) (operation : Operation) : Failure → Option PatchError
  | .missing =>
    match policy with
    | .ignore => none
    | .fail => some (.locatorMiss operation.target.text)
  | .mismatch expected => some (.typeMismatch operation.target.text expected)
  | .noTarget => some .emptyLocator

/-- How an operation ends a run. -/
theorem run_eq_error_iff {error : PatchError} :
    operation.run policy tree = .error error ↔
      operation.allowed tree = true ∧
        ∃ failure, operation.act tree = .error failure ∧
          operation.error? policy failure = some error := by
  unfold run
  split_ifs with hallowed
  · cases operation.act tree with
    | ok found => simp
    | error failure =>
      cases failure with
      | missing => cases policy <;> simp [hallowed, error?]
      | mismatch | noTarget => simp [hallowed, error?]
  · simp [hallowed]

/-- How an operation ends well: it is applied, or it leaves the tree as it is. -/
theorem run_cases (h : operation.run policy tree = .ok (changed, record)) :
    (operation.act tree = .ok changed ∧ record = operation.record .applied) ∨
      (changed = tree ∧ record.outcome ≠ .applied) := by
  rcases run_eq_ok_iff.1 h with ⟨-, htree, rfl⟩ | ⟨-, hact, hrecord⟩ | ⟨-, -, -, htree, rfl⟩
  · exact .inr ⟨htree, by simp [Operation.record]⟩
  · exact .inl ⟨hact, hrecord⟩
  · exact .inr ⟨htree, by simp [Operation.record]⟩

/-- How an operation without a guard ends well: it is applied, or its target is missing and may
be. -/
theorem run_eq_ok (h : operation.guard = none) :
    operation.run policy tree = .ok (changed, record) ↔
      (operation.act tree = .ok changed ∧ record = operation.record .applied) ∨
      (operation.act tree = .error .missing ∧ policy = .ignore ∧ changed = tree ∧
        record = operation.record .missed) := by
  have hallowed : operation.allowed tree = true := by simp [allowed, h]
  simp [run_eq_ok_iff, hallowed]

end Operation

/-! ### Independent operations -/

/-- Operations without guards at keys, whose targets part pairwise. -/
structure Independent (operations : List Operation) : Prop where
  atKeys : ∀ operation ∈ operations, ∃ path name, operation.AtKey path name
  apart : operations.Pairwise Operation.Apart

theorem Independent.of_cons {operation : Operation} {more : List Operation}
    (h : Independent (operation :: more)) :
    (∃ path name, operation.AtKey path name) ∧ (∀ other ∈ more, operation.Apart other) ∧
      Independent more := by
  obtain ⟨hfirst, hmore⟩ := List.forall_mem_cons.1 h.atKeys
  obtain ⟨hapart, hpairwise⟩ := List.pairwise_cons.1 h.apart
  exact ⟨hfirst, hapart, hmore, hpairwise⟩

namespace Operation

variable {operation other : Operation} {path below : List Segment} {name field : String}
  {changed : Tree} {record : Record}

/-- What stands at the target of an operation is left by others whose targets part from it. -/
theorem AtKey.spot_of_run (hother : other.AtKey below field) (h : operation.AtKey path name)
    (hapart : Apart other operation)
    (hrun : operation.run policy tree = .ok (changed, record)) :
    other.spot changed = other.spot tree := by
  rcases (run_eq_ok h.unguarded).1 hrun with ⟨hact, -⟩ | ⟨-, -, rfl, -⟩
  · exact h.spot_of_apart hother hapart hact
  · rfl

end Operation

namespace Ran

/-- What stands at a target is left by a run of operations whose targets part from it. -/
theorem spot_eq (hran : Ran policy operations tree records after)
    (hkeys : ∀ operation ∈ operations, ∃ path name, operation.AtKey path name)
    {other : Operation} {path : List Segment} {name : String} (hother : other.AtKey path name)
    (hapart : ∀ operation ∈ operations, other.Apart operation) :
    other.spot after = other.spot tree := by
  induction hran with
  | nil => rfl
  | cons hrun _ ih =>
    obtain ⟨⟨_, _, hkey⟩, hkeys⟩ := List.forall_mem_cons.1 hkeys
    obtain ⟨hfirst, hapart⟩ := List.forall_mem_cons.1 hapart
    exact (ih hkeys hapart).trans (hother.spot_of_run hkey hfirst hrun)

/-- What a path leads to is left by a run of operations whose targets part from it. -/
theorem resolve?_eq (hran : Ran policy operations tree records after)
    (hkeys : ∀ operation ∈ operations, ∃ path name, operation.AtKey path name)
    {path : List Segment}
    (hparts : ∀ operation ∈ operations, parts path operation.target.segments) :
    after.resolve? path = tree.resolve? path := by
  induction hran with
  | nil => rfl
  | cons hrun _ ih =>
    obtain ⟨⟨_, _, hkey⟩, hkeys⟩ := List.forall_mem_cons.1 hkeys
    obtain ⟨hfirst, hparts⟩ := List.forall_mem_cons.1 hparts
    refine (ih hkeys hparts).trans ?_
    rcases (Operation.run_eq_ok hkey.unguarded).1 hrun with ⟨hact, -⟩ | ⟨-, -, rfl, -⟩
    · exact hkey.resolve?_of_parts hfirst hact
    · rfl

/-- Under the policy that forbids missing targets every operation is applied. -/
theorem records_eq (hran : Ran .fail operations tree records after)
    (hguards : ∀ operation ∈ operations, operation.guard = none) :
    records = operations.map (·.record .applied) := by
  induction operations generalizing tree records with
  | nil =>
    cases hran
    rfl
  | cons operation more ih =>
    obtain ⟨hguard, hguards⟩ := List.forall_mem_cons.1 hguards
    cases hran with
    | cons hrun hmore =>
      rcases (Operation.run_eq_ok hguard).1 hrun with ⟨-, rfl⟩ | ⟨-, hpolicy, -⟩
      · rw [ih hmore hguards, List.map_cons]
      · cases hpolicy

/-- **Independent operations act as if each ran alone**: what stands at the target of one in the
end is what its action makes of what stood there at the start. -/
theorem onSpot_eq (hran : Ran .fail operations tree records after)
    (hind : Independent operations) :
    ∀ operation ∈ operations,
      operation.action.onSpot (operation.spot tree) = .ok (operation.spot after) := by
  induction operations generalizing tree records with
  | nil => simp
  | cons operation more ih =>
    obtain ⟨⟨path, name, hkey⟩, hapart, hmoreInd⟩ := hind.of_cons
    cases hran with
    | cons hrun hmore =>
      intro other hother
      rcases List.mem_cons.1 hother with rfl | hother
      · -- the others leave what it makes
        rw [hmore.spot_eq hmoreInd.atKeys hkey hapart]
        rcases (Operation.run_eq_ok hkey.unguarded).1 hrun with ⟨hact, -⟩ | ⟨-, hpolicy, -⟩
        · exact hkey.onSpot_of_act hact
        · cases hpolicy
      · -- the first one leaves what it finds
        obtain ⟨below, field, hotherKey⟩ := hmoreInd.atKeys other hother
        rw [← hotherKey.spot_of_run hkey (hapart other hother).symm hrun]
        exact ih hmore hmoreInd other hother

/-- What a target leads to, at the start and in the end. -/
theorem exists_spots (hran : Ran .fail operations tree records after)
    (hind : Independent operations) {operation : Operation} (hmem : operation ∈ operations) :
    ∃ before final, operation.action.onSpot before = .ok final ∧
      tree.resolve? operation.target.segments = before.value? ∧
      after.resolve? operation.target.segments = final.value? := by
  obtain ⟨path, name, hkey⟩ := hind.atKeys operation hmem
  refine ⟨operation.spot tree, operation.spot after, hran.onSpot_eq hind operation hmem, ?_, ?_⟩
  · exact (hkey.value?_spot tree).symm
  · exact (hkey.value?_spot after).symm

theorem resolve?_set (hran : Ran .fail operations tree records after)
    (hind : Independent operations) {target : Locator} {value : Tree}
    (hmem : Operation.set target value ∈ operations) :
    after.resolve? target.segments = some value := by
  obtain ⟨before, final, hspot, -, hafter⟩ := hran.exists_spots hind hmem
  obtain rfl := Action.eq_of_set_onSpot hspot
  exact hafter

theorem resolve?_remove (hran : Ran .fail operations tree records after)
    (hind : Independent operations) {target : Locator}
    (hmem : Operation.remove target ∈ operations) : after.resolve? target.segments = none := by
  obtain ⟨before, final, hspot, -, hafter⟩ := hran.exists_spots hind hmem
  obtain rfl := Action.eq_of_remove_onSpot hspot
  exact hafter

theorem resolve?_replace (hran : Ran .fail operations tree records after)
    (hind : Independent operations) {target : Locator} {old new : String}
    (hmem : Operation.replace target old new ∈ operations) :
    ∃ found text, tree.resolve? target.segments = some found ∧ found.text? = some text ∧
      after.resolve? target.segments =
        some (.text (String.ofList (replaceAll old.toList new.toList text.toList))) := by
  obtain ⟨before, final, hspot, hbefore, hafter⟩ := hran.exists_spots hind hmem
  obtain ⟨found, changed, rfl, hchanged, rfl⟩ := Action.exists_of_replace_onSpot hspot
  obtain ⟨text, htext, rfl⟩ := Tree.replaceText_eq_ok.1 hchanged
  exact ⟨found, text, hbefore, htext, hafter⟩

theorem resolve?_setEntries (hran : Ran .fail operations tree records after)
    (hind : Independent operations) {target : Locator} {keyField valueField : String}
    {values : List (String × String)}
    (hmem : Operation.setEntries target keyField valueField values ∈ operations) :
    ∃ found changed items, tree.resolve? target.segments = some found ∧
      found.items? = some items ∧ after.resolve? target.segments = some changed ∧
      changed.items? = some (items.map (Tree.withNamedValue keyField valueField values)) := by
  obtain ⟨before, final, hspot, hbefore, hafter⟩ := hran.exists_spots hind hmem
  obtain ⟨found, changed, rfl, hchanged, rfl⟩ := Action.exists_of_setEntries_onSpot hspot
  obtain ⟨items, hitems, hitems'⟩ := Tree.items?_of_changeItems hchanged
  exact ⟨found, changed, items, hbefore, hitems, hafter, hitems'⟩

/-- Operations below a path leave all beside it as it is. -/
theorem sameBeside (hran : Ran .fail operations tree records after) (hsome : operations ≠ [])
    {path : List Segment}
    (hbelow : ∀ operation ∈ operations, ∃ rest name, operation.AtKey (path ++ rest) name) :
    Tree.SameBeside path tree after := by
  induction operations generalizing tree records with
  | nil => exact absurd rfl hsome
  | cons operation more ih =>
    obtain ⟨⟨rest, name, hkey⟩, hbelow⟩ := List.forall_mem_cons.1 hbelow
    cases hran with
    | cons hrun hmore =>
      rcases (Operation.run_eq_ok hkey.unguarded).1 hrun with ⟨hact, -⟩ | ⟨-, hpolicy, -⟩
      · have hfirst := (hkey.changed_of_act hact).sameBeside
        -- without operations nothing says that there is a path
        by_cases hnone : more = []
        · subst hnone
          cases hmore
          exact hfirst
        · exact hfirst.trans (ih hmore hnone hbelow)
      · cases hpolicy

/-- The items on which a condition falls before and after a run that works on nothing above them,
and in the end below the condition. -/
theorem fallsOnOne {first second : List Operation}
    (hran : Ran .fail (first ++ second) tree records after) (hsome : second ≠ [])
    (hkeys : ∀ operation ∈ first, ∃ path name, operation.AtKey path name)
    {path : List Segment} {selector : Selector}
    (hparts : ∀ operation ∈ first, parts path operation.target.segments)
    (hbelow : ∀ operation ∈ second, ∃ rest name,
      operation.AtKey (path ++ [.find selector] ++ rest) name) :
    Tree.FallsOnOne selector path tree after := by
  obtain ⟨mid, before, later, hfirst, hsecond, rfl⟩ := ran_append.1 hran
  unfold Tree.FallsOnOne
  rw [← hfirst.resolve?_eq hkeys hparts]
  exact (hsecond.sameBeside hsome hbelow).fallsOnOne

end Ran

end OperatorBundle
