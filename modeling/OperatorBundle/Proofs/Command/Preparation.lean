import OperatorBundle.Proofs.Command.Inputs
import OperatorBundle.Proofs.Files.Disk
import OperatorBundle.Proofs.Manifest.Reload
import OperatorBundle.Proofs.Patch.Run

/-!
Runs taken apart. All that can fail but writing happens first, and depends on the files only through
what the target is found to hold; then the target is written, or the document is printed. So what a
run prepares says how it ends, on any storage.

* `Command.prepare_eq_ready`: what a run has ready for its target.
* `Command.runOn_plan`: a run is its preparation and then its delivery.
* `Command.run_cases`: a run patches its target, or leaves the files and prints nothing.
-/

namespace OperatorBundle

/-! ### Patched texts -/

theorem patchedText_eq_ok {policy : Policy} {operations : List Operation} {target text : String}
    {manifest : Manifest} {report : Report} :
    patchedText policy target operations manifest = .ok (report, text) ↔
      ∃ patched, manifest.patch policy operations = (patched, .ok report) ∧
        patched.toYaml = .ok text := by
  unfold patchedText
  rcases manifest.patch policy operations with ⟨patched, error | found⟩
  · simp
  · rw [show (∃ other, (patched, Except.ok found) = (other, .ok report) ∧ other.toYaml = .ok text) ↔
      found = report ∧ patched.toYaml = .ok text by simp [and_assoc]]
    rw [← Manifest.fileText_eq_ok]
    cases hfile : patched.fileText <;> simp [hfile]

theorem ofFile_eq_ok {path : String} {content : Except FileFault String} {manifest : Manifest} :
    Manifest.ofFile path content = .ok manifest ↔
      ∃ text, content = .ok text ∧ Manifest.ofYaml text = .ok manifest := by
  cases content with
  | error fault => cases fault <;> simp [Manifest.ofFile]
  | ok text => cases h : Manifest.ofYaml text <;> simp [Manifest.ofFile, h]

/-! ### Loading -/

section Loading

variable {σ : Type} {storage : Storage σ} {state : σ} {path : String}

theorem runOn_load (storage : Storage σ) (state : σ) (path : String) :
    (Manifest.load path).runOn storage state =
      (if isManifestPath path then (Manifest.ofFile path (storage.read state path)).map some
        else .ok none, state) := by
  unfold Manifest.load
  split_ifs <;> rfl

/-- The runs that load a manifest. -/
theorem runOn_load_eq {manifest : Manifest} :
    (Manifest.load path).runOn storage state = (.ok (some manifest), state) ↔
      isManifestPath path ∧ ∃ text, storage.read state path = .ok text ∧
        Manifest.ofYaml text = .ok manifest := by
  by_cases hpath : isManifestPath path
  · simp [runOn_load, hpath, map_eq_ok, ofFile_eq_ok]
  · simp [runOn_load, hpath]

end Loading

namespace Command

variable {command : Command} {env : Environment} {settings : Settings} {policy : Policy}
  {read : Reading}

/-! ### Before the delivery -/

/-- What a run has when all that can fail has gone well. -/
structure Ready where
  target : String
  report : Report
  text : String

/-- The part of a run that can fail. It reads the target, and a target that is no manifest ends it
with nothing. -/
def prepare (command : Command) (env : Environment) (settings : Settings) (policy : Policy)
    (read : Reading) : Except CommandError (Option Ready) :=
  match command.job env settings with
  | .error error => .error error
  | .ok (target, operations) =>
    if isManifestPath target then
      match Manifest.ofFile target (read target) with
      | .error error => .error (.manifest error)
      | .ok manifest =>
        match patchedText policy target operations manifest with
        | .error error => .error error
        | .ok (report, text) => .ok (some ⟨target, report, text⟩)
    else .ok none

/-- A run on a manifest prepares its patched text. -/
theorem prepare_of_manifest {target source : String} {operations : List Operation}
    {manifest : Manifest} (hjob : command.job env settings = .ok (target, operations))
    (hpath : isManifestPath target) (hsource : read target = .ok source)
    (hread : Manifest.ofYaml source = .ok manifest) :
    command.prepare env settings policy read =
      (patchedText policy target operations manifest).map fun found =>
        some ⟨target, found.1, found.2⟩ := by
  have hfile : Manifest.ofFile target (read target) = .ok manifest :=
    ofFile_eq_ok.2 ⟨source, hsource, hread⟩
  simp only [prepare, hjob, hpath, if_true, hfile]
  cases patchedText policy target operations manifest <;> rfl

/-- **What a run has ready** comes from the manifest in its target. -/
theorem prepare_eq_ready {ready : Ready} :
    command.prepare env settings policy read = .ok (some ready) ↔
      ∃ operations source manifest, command.job env settings = .ok (ready.target, operations) ∧
        isManifestPath ready.target ∧ read ready.target = .ok source ∧
        Manifest.ofYaml source = .ok manifest ∧
        patchedText policy ready.target operations manifest = .ok (ready.report, ready.text) := by
  constructor
  · intro h
    unfold prepare at h
    cases hjob : command.job env settings with
    | error error => simp [hjob] at h
    | ok job =>
      obtain ⟨target, operations⟩ := job
      simp only [hjob] at h
      split_ifs at h with hpath
      · cases hfile : Manifest.ofFile target (read target) with
        | error error => simp [hfile] at h
        | ok manifest =>
          cases hpatched : patchedText policy target operations manifest with
          | error error => simp [hfile, hpatched] at h
          | ok found =>
            simp only [hfile, hpatched, Except.ok.injEq, Option.some.injEq] at h
            subst h
            obtain ⟨source, hsource, hread⟩ := ofFile_eq_ok.1 hfile
            exact ⟨operations, source, manifest, rfl, hpath, hsource, hread, hpatched⟩
      · simp at h
  · rintro ⟨operations, source, manifest, hjob, hpath, hsource, hread, hpatched⟩
    rw [prepare_of_manifest hjob hpath hsource hread, hpatched]
    rfl

/-! ### The delivery -/

variable {σ : Type} {storage : Storage σ} {state final : σ} {options : Options} {ready : Ready}

theorem runOn_deliver {target text : String} {report : Report} (hdry : options.dryRun = false) :
    (deliver options target report text).runOn storage state =
      match storage.write state target text with
      | .ok changed => (.patched options target report none, changed)
      | .error fault => (.failed (.manifest (.notWritten target fault)), state) := by
  unfold deliver
  rw [hdry, if_neg (by decide)]
  simp only [bind, Plan.bind, Manifest.storeText, Plan.runOn]
  cases storage.write state target text <;> rfl

/-- **A run is its preparation and then its delivery.** -/
theorem runOn_plan (command : Command) (env : Environment) (options : Options)
    (storage : Storage σ) (state : σ) :
    (command.plan env options).runOn storage state =
      match command.prepare env options.settings options.policy (storage.read state) with
      | .error error => (.failed error, state)
      | .ok none => (⟨.ok .notApplicable, ""⟩, state)
      | .ok (some ready) =>
        (deliver options ready.target ready.report ready.text).runOn storage state := by
  unfold Command.plan prepare
  cases command.job env options.settings with
  | error error => rfl
  | ok job =>
    obtain ⟨target, operations⟩ := job
    simp only [patchFile, bind, Plan.runOn_bind, runOn_load]
    split_ifs
    · cases Manifest.ofFile target (storage.read state target) with
      | error error => rfl
      | ok manifest =>
        simp only [Except.map]
        cases patchedText options.policy target operations manifest <;> rfl
    · rfl

theorem runOn_of_error {error : CommandError}
    (h : command.prepare env options.settings options.policy (storage.read state) =
      .error error) :
    (command.plan env options).runOn storage state = (.failed error, state) := by
  rw [runOn_plan, h]

theorem runOn_of_none
    (h : command.prepare env options.settings options.policy (storage.read state) = .ok none) :
    (command.plan env options).runOn storage state = (⟨.ok .notApplicable, ""⟩, state) := by
  rw [runOn_plan, h]

/-- A dry run prints the document and leaves the files. -/
theorem runOn_of_dry (hdry : options.dryRun = true)
    (h : command.prepare env options.settings options.policy (storage.read state) =
      .ok (some ready)) :
    (command.plan env options).runOn storage state =
      (.patched options ready.target ready.report (some ready.text), state) := by
  rw [runOn_plan, h]
  simp only [deliver, hdry, if_true]
  rfl

/-- A run that is not dry writes the document. -/
theorem runOn_of_ready (hdry : options.dryRun = false)
    (h : command.prepare env options.settings options.policy (storage.read state) =
      .ok (some ready)) :
    (command.plan env options).runOn storage state =
      match storage.write state ready.target ready.text with
      | .ok changed => (.patched options ready.target ready.report none, changed)
      | .error fault => (.failed (.manifest (.notWritten ready.target fault)), state) := by
  rw [runOn_plan, h]
  exact runOn_deliver hdry

theorem runOn_of_written (hdry : options.dryRun = false)
    (h : command.prepare env options.settings options.policy (storage.read state) =
      .ok (some ready)) (hwrite : storage.write state ready.target ready.text = .ok final) :
    (command.plan env options).runOn storage state =
      (.patched options ready.target ready.report none, final) := by
  rw [runOn_of_ready hdry h, hwrite]

/-- The document goes into the output of a dry run, and into the target otherwise. -/
theorem exists_run_of_ready (hwrite : storage.Writable state)
    (h : command.prepare env options.settings options.policy (storage.read state) =
      .ok (some ready)) :
    ∃ final, (command.plan env options).runOn storage state =
      (.patched options ready.target ready.report
        (if options.dryRun then some ready.text else none), final) := by
  cases hdry : options.dryRun with
  | true => exact ⟨state, runOn_of_dry hdry h⟩
  | false =>
    obtain ⟨operations, source, manifest, -, -, hsource, -⟩ := prepare_eq_ready.1 h
    obtain ⟨changed, hchanged⟩ := hwrite ready.target source hsource ready.text
    exact ⟨changed, runOn_of_written hdry h hchanged⟩

/-- A run that patches its target has all of it ready, and leaves the files or writes the target;
any other leaves the files and prints nothing. -/
theorem run_cases {finish : Finish}
    (hrun : (command.plan env options).runOn storage state = (finish, final)) :
    (final = state ∧ finish.output = "" ∧ ∀ report, finish.status ≠ .ok (.patched report)) ∨
      ∃ ready, command.prepare env options.settings options.policy (storage.read state) =
          .ok (some ready) ∧
        finish = .patched options ready.target ready.report
          (if options.dryRun then some ready.text else none) ∧
        (options.dryRun = true → final = state) ∧
        (options.dryRun = false → storage.write state ready.target ready.text = .ok final) := by
  rcases hprepare : command.prepare env options.settings options.policy (storage.read state)
    with error | _ | ready
  · rw [runOn_of_error hprepare] at hrun
    obtain ⟨rfl, rfl⟩ := Prod.mk.inj hrun
    exact .inl ⟨rfl, rfl, fun report h => by cases h⟩
  · rw [runOn_of_none hprepare] at hrun
    obtain ⟨rfl, rfl⟩ := Prod.mk.inj hrun
    exact .inl ⟨rfl, rfl, fun report h => by cases h⟩
  cases hdry : options.dryRun with
  | true =>
    rw [runOn_of_dry hdry hprepare] at hrun
    obtain ⟨rfl, rfl⟩ := Prod.mk.inj hrun
    exact .inr ⟨ready, rfl, rfl, fun _ => rfl, by simp⟩
  | false =>
    rw [runOn_of_ready hdry hprepare] at hrun
    cases hwrite : storage.write state ready.target ready.text with
    | error fault =>
      rw [hwrite] at hrun
      obtain ⟨rfl, rfl⟩ := Prod.mk.inj hrun
      exact .inl ⟨rfl, rfl, fun report h => by cases h⟩
    | ok changed =>
      rw [hwrite] at hrun
      obtain ⟨rfl, rfl⟩ := Prod.mk.inj hrun
      exact .inr ⟨ready, rfl, rfl, by simp, fun _ => hwrite⟩

/-- **What a run that patched its target went through.** -/
theorem exists_ready_of_run {finish : Finish} {report : Report}
    (hrun : (command.plan env options).runOn storage state = (finish, final))
    (hstatus : finish.status = .ok (.patched report)) :
    ∃ ready, command.prepare env options.settings options.policy (storage.read state) =
        .ok (some ready) ∧
      report = ready.report ∧
      finish = .patched options ready.target ready.report
        (if options.dryRun then some ready.text else none) ∧
      (options.dryRun = true → final = state) ∧
      (options.dryRun = false → storage.write state ready.target ready.text = .ok final) := by
  rcases run_cases hrun with ⟨-, -, hother⟩ | ⟨ready, hready, rfl, hdry, hwrite⟩
  · exact absurd hstatus (hother report)
  · exact ⟨ready, hready, (Status.patched.inj (Except.ok.inj hstatus)).symm, rfl, hdry, hwrite⟩

/-- A run that does not patch its target leaves the files and prints nothing. -/
theorem unchanged_of_run {finish : Finish}
    (hrun : (command.plan env options).runOn storage state = (finish, final))
    (hstatus : ∀ report, finish.status ≠ .ok (.patched report)) :
    final = state ∧ finish.output = "" := by
  rcases run_cases hrun with ⟨hfinal, houtput, -⟩ | ⟨ready, -, rfl, -⟩
  · exact ⟨hfinal, houtput⟩
  · exact absurd rfl (hstatus ready.report)

end Command

end OperatorBundle
