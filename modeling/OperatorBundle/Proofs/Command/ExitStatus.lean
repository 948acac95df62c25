import OperatorBundle.Proofs.Command.Delivery
import OperatorBundle.Proofs.Command.Inputs
import OperatorBundle.Proofs.CommandLine.Override

/-!
The exit status. A program checks its arguments, the settings, the inputs, the patch, the name of
the target, the target and the patched document, in this order, and the first of them that fails
decides how it ends, whatever else is wrong. Files may be kept anywhere, and reading them may fail
in any way; only the status of a run that cannot write what it could read is left open.

* `status_iff_exitsWith`: the rules give the exit status of every run.
-/

namespace OperatorBundle

open OperatorBundle.CommandLine

/-! ### Rules -/

/-- The settings of a run: those in a file, or the standard ones if none is named. -/
inductive Settings.Given (read : Reading) : Option String → Settings → Prop
  | standard : Given read none Settings.standard
  | file {path text : String} {settings : Settings} (hread : read path = .ok text)
      (h : Settings.ofText? text = some settings) : Given read (some path) settings

/-- A run that gets to its target: its arguments ask for a command, its settings can be had, its
inputs are complete, and the patch can be built. -/
structure Reaches (arguments : List String) (env : Environment) (read : Reading)
    (invocation : Invocation) (settings : Settings) (target : String) : Prop where
  parsed : parse arguments = .ok invocation
  given : Settings.Given read invocation.config settings
  inputs : invocation.command.HasInputs env
  stamp : invocation.command.HasStamp env settings
  named : env invocation.command.targetVariable = some target

/-- A run that gets to a manifest, with the operations on it. -/
structure Loads (arguments : List String) (env : Environment) (read : Reading)
    (invocation : Invocation) (settings : Settings) (target : String)
    (operations : List Operation) (manifest : Manifest) : Prop
    extends Reaches arguments env read invocation settings target where
  name : isManifestPath target
  job : invocation.command.job env settings = .ok (target, operations)
  loaded : ∃ text, read target = .ok text ∧ Manifest.ofYaml text = .ok manifest

/-- The policy in force: the one that the arguments give, or the one in the settings. -/
def policyInForce (arguments : List String) (settings : Settings) : Policy :=
  (Stance.ofArguments arguments).override.getD settings.onMissing

/-- The exit statuses of the program, by the first thing that is wrong. -/
inductive ExitsWith (arguments : List String) (env : Environment) (read : Reading) : Nat → Prop
  /-- The arguments are malformed. -/
  | usage (h : parse arguments = .error .usage) : ExitsWith arguments env read 1
  /-- The arguments ask for help. -/
  | help (h : parse arguments = .error .help) : ExitsWith arguments env read 0
  /-- The arguments ask for the version. -/
  | version (h : parse arguments = .error .version) : ExitsWith arguments env read 0
  /-- The settings file cannot be read, or gives no settings. -/
  | settings {invocation : Invocation} {path : String} (hparse : parse arguments = .ok invocation)
      (hconfig : invocation.config = some path)
      (h : ∀ text, read path = .ok text → Settings.ofText? text = none) :
      ExitsWith arguments env read 1
  /-- A variable is missing or malformed. -/
  | inputs {invocation : Invocation} {settings : Settings}
      (hparse : parse arguments = .ok invocation)
      (hgiven : Settings.Given read invocation.config settings)
      (h : ¬ invocation.command.HasInputs env) : ExitsWith arguments env read 1
  /-- The patch cannot be built. -/
  | stamp {invocation : Invocation} {settings : Settings}
      (hparse : parse arguments = .ok invocation)
      (hgiven : Settings.Given read invocation.config settings)
      (hinputs : invocation.command.HasInputs env)
      (h : ¬ invocation.command.HasStamp env settings) : ExitsWith arguments env read 1
  /-- The target has another name than manifests have. -/
  | otherFile {invocation : Invocation} {settings : Settings} {target : String}
      (hreaches : Reaches arguments env read invocation settings target)
      (h : isManifestPath target = false) : ExitsWith arguments env read 0
  /-- The target is not there, cannot be read, or holds no document. -/
  | unreadable {invocation : Invocation} {settings : Settings} {target : String}
      (hreaches : Reaches arguments env read invocation settings target)
      (hname : isManifestPath target)
      (h : ∀ text, read target = .ok text → ∃ fault, Manifest.ofYaml text = .error fault) :
      ExitsWith arguments env read 2
  /-- The patch fails. -/
  | patch {invocation : Invocation} {settings : Settings} {target : String}
      {operations : List Operation} {manifest : Manifest} {error : PatchError}
      (hloads : Loads arguments env read invocation settings target operations manifest)
      (h : (manifest.patch (policyInForce arguments settings) operations).2 = .error error) :
      ExitsWith arguments env read 1
  /-- The patched document cannot be written as a text. -/
  | document {invocation : Invocation} {settings : Settings} {target : String}
      {operations : List Operation} {manifest patched : Manifest} {report : Report}
      {fault : Yaml.WriteFault}
      (hloads : Loads arguments env read invocation settings target operations manifest)
      (hpatch : manifest.patch (policyInForce arguments settings) operations =
        (patched, .ok report)) (h : patched.toYaml = .error fault) :
      ExitsWith arguments env read 1
  /-- Nothing fails. -/
  | success {invocation : Invocation} {settings : Settings} {target : String}
      {operations : List Operation} {manifest patched : Manifest} {report : Report} {text : String}
      (hloads : Loads arguments env read invocation settings target operations manifest)
      (hpatch : manifest.patch (policyInForce arguments settings) operations =
        (patched, .ok report)) (h : patched.toYaml = .ok text) :
      ExitsWith arguments env read 0

/-! ### The status of a command -/

/-- The exit status of an attempt that may fail in one way or end well. -/
def statusOf {α : Type} : Except CommandError α → Nat
  | .error error => error.exitStatus
  | .ok _ => 0

/-- The exit status of a command is that of its preparation: what it has ready can be delivered. -/
theorem status_plan {σ : Type} {storage : Storage σ} {state : σ} (hwrite : storage.Writable state)
    (command : Command) (env : Environment) (options : Options) :
    (commandExit ((command.plan env options).runOn storage state).1).status =
      statusOf (command.prepare env options.settings options.policy (storage.read state)) := by
  rcases hprepare : command.prepare env options.settings options.policy (storage.read state)
    with error | _ | ready
  · rw [Command.runOn_of_error hprepare]
    rfl
  · rw [Command.runOn_of_none hprepare]
    rfl
  · obtain ⟨final, hrun⟩ := Command.exists_run_of_ready hwrite hprepare
    rw [hrun]
    rfl

/-! ### The status by the rules -/

/-- The settings in what files are found to hold. -/
def Settings.loaded (read : Reading) : Option String → Except SettingsError Settings
  | none => .ok .standard
  | some path => ofFile path (read path)

theorem Settings.loaded_eq_ok {read : Reading} {config : Option String} {settings : Settings} :
    Settings.loaded read config = .ok settings ↔ Settings.Given read config settings := by
  constructor
  · intro h
    cases config with
    | none =>
      obtain rfl := Except.ok.inj h
      exact .standard
    | some path =>
      unfold loaded ofFile at h
      cases hread : read path with
      | error fault => simp [hread] at h
      | ok text =>
        cases hsettings : ofText? text with
        | none => simp [hread, hsettings] at h
        | some found =>
          simp only [hread, hsettings, Except.ok.injEq] at h
          subst h
          exact .file hread hsettings
  · rintro (_ | ⟨hread, hsettings⟩)
    · rfl
    · simp only [loaded, ofFile, hread, hsettings]

/-- The exit status of the program, as its steps give it. -/
def programStatus (arguments : List String) (env : Environment) (read : Reading) : Nat :=
  match parse arguments with
  | .error ending => ending.exitStatus
  | .ok invocation =>
    match Settings.loaded read invocation.config with
    | .error _ => 1
    | .ok settings =>
      statusOf (invocation.command.prepare env settings (invocation.options settings).policy read)

theorem status_program {σ : Type} {storage : Storage σ} {state : σ}
    (hwrite : storage.Writable state) (arguments : List String) (env : Environment) :
    ((program arguments env).runOn storage state).1.status =
      programStatus arguments env (storage.read state) := by
  unfold program programStatus
  cases parse arguments with
  | error ending => rfl
  | ok invocation =>
    have hload : (Settings.load invocation.config).runOn storage state =
        (Settings.loaded (storage.read state) invocation.config, state) := by
      cases invocation.config <;> rfl
    simp only [Invocation.plan, bind, Plan.runOn_bind, hload]
    cases Settings.loaded (storage.read state) invocation.config with
    | error error => rfl
    | ok settings =>
      simp only [Plan.runOn_bind]
      exact status_plan hwrite invocation.command env (invocation.options settings)

section Rules

variable {arguments : List String} {env : Environment} {read : Reading} {invocation : Invocation}
  {settings : Settings} {target : String} {operations : List Operation} {manifest : Manifest}
  {command : Command} {error : CommandError} {status : Nat}

/-- The arguments give the policy in force. -/
theorem policy_options (hparse : parse arguments = .ok invocation) :
    (invocation.options settings).policy = policyInForce arguments settings := by
  rw [policyInForce, ← override_of_parse hparse]
  rfl

theorem programStatus_eq (hparse : parse arguments = .ok invocation)
    (hgiven : Settings.Given read invocation.config settings) :
    programStatus arguments env read =
      statusOf (invocation.command.prepare env settings (policyInForce arguments settings)
        read) := by
  unfold programStatus
  simp only [hparse, Settings.loaded_eq_ok.2 hgiven, policy_options hparse]

/-- Malformed inputs have the status of all errors but those about the target. -/
theorem exitStatus_of_job (h : command.job env settings = .error error) : error.exitStatus = 1 := by
  cases Command.refused_of_job h <;> rfl

theorem status_of_refused {policy : Policy}
    (h : ¬ (command.HasInputs env ∧ command.HasStamp env settings)) :
    statusOf (command.prepare env settings policy read) = 1 := by
  unfold Command.prepare
  cases hjob : command.job env settings with
  | error error => exact exitStatus_of_job hjob
  | ok job =>
    obtain ⟨hinputs, hstamp, -⟩ := Command.hasInputs_of_job hjob
    exact absurd ⟨hinputs, hstamp⟩ h

theorem Reaches.exists_job (h : Reaches arguments env read invocation settings target) :
    ∃ operations, invocation.command.job env settings = .ok (target, operations) :=
  Command.exists_job_iff.2 ⟨h.inputs, h.stamp, h.named⟩

/-- The status of a file that gives no manifest. -/
theorem exitStatus_of_ofFile {content : Except FileFault String} {error : ManifestError}
    (h : Manifest.ofFile target content = .error error) : error.exitStatus = 2 := by
  cases content with
  | error fault => cases fault <;> obtain rfl := Except.error.inj h <;> rfl
  | ok text =>
    unfold Manifest.ofFile at h
    cases hread : Manifest.ofYaml text with
    | ok manifest => simp [hread] at h
    | error fault =>
      simp only [hread, Except.error.injEq] at h
      rw [← h]
      rfl

theorem Loads.programStatus_eq
    (h : Loads arguments env read invocation settings target operations manifest) :
    programStatus arguments env read =
      statusOf (patchedText (policyInForce arguments settings) target operations manifest) := by
  obtain ⟨text, hread, hmanifest⟩ := h.loaded
  rw [OperatorBundle.programStatus_eq h.parsed h.given,
    Command.prepare_of_manifest h.job h.name hread hmanifest]
  cases patchedText (policyInForce arguments settings) target operations manifest <;> rfl

/-- **Each rule gives the status of the run that it is about.** -/
theorem ExitsWith.programStatus_eq (h : ExitsWith arguments env read status) :
    programStatus arguments env read = status := by
  cases h with
  | usage h | help h | version h => simp only [programStatus, h, Ending.exitStatus]
  | @settings invocation path hparse hconfig h =>
    unfold programStatus
    simp only [hparse, hconfig]
    cases hloaded : Settings.loaded read (some path) with
    | error error => rfl
    | ok settings =>
      cases Settings.loaded_eq_ok.1 hloaded with
      | file hread hsettings =>
        rw [h _ hread] at hsettings
        cases hsettings
  | inputs hparse hgiven h =>
    rw [OperatorBundle.programStatus_eq hparse hgiven]
    exact status_of_refused fun hboth => h hboth.1
  | stamp hparse hgiven _ h =>
    rw [OperatorBundle.programStatus_eq hparse hgiven]
    exact status_of_refused fun hboth => h hboth.2
  | otherFile hreaches h =>
    obtain ⟨operations, hjob⟩ := hreaches.exists_job
    rw [OperatorBundle.programStatus_eq hreaches.parsed hreaches.given]
    simp [Command.prepare, hjob, h, statusOf]
  | @unreadable _ _ target hreaches hname h =>
    obtain ⟨operations, hjob⟩ := hreaches.exists_job
    rw [OperatorBundle.programStatus_eq hreaches.parsed hreaches.given]
    unfold Command.prepare
    simp only [hjob, hname, if_true]
    cases hfile : Manifest.ofFile target (read target) with
    | error error => exact exitStatus_of_ofFile hfile
    | ok manifest =>
      obtain ⟨text, hread, hmanifest⟩ := ofFile_eq_ok.1 hfile
      obtain ⟨fault, hfault⟩ := h text hread
      rw [hmanifest] at hfault
      cases hfault
  | @patch _ _ target operations manifest error hloads h =>
    rw [hloads.programStatus_eq]
    unfold patchedText
    cases hpatch : manifest.patch (policyInForce arguments _) operations with
    | mk patched result =>
      rw [hpatch] at h
      obtain rfl : result = .error error := h
      rfl
  | document hloads hpatch h =>
    rw [hloads.programStatus_eq]
    simp only [patchedText, hpatch, Manifest.fileText, h]
    rfl
  | success hloads hpatch h =>
    rw [hloads.programStatus_eq, patchedText_eq_ok.2 ⟨_, hpatch, h⟩]
    rfl

/-- There is a rule for a run that gets to a manifest. -/
theorem Loads.exists_exitsWith
    (h : Loads arguments env read invocation settings target operations manifest) :
    ∃ status, ExitsWith arguments env read status := by
  rcases hpatch : manifest.patch (policyInForce arguments settings) operations
    with ⟨patched, error | report⟩
  · exact ⟨1, .patch h (congrArg Prod.snd hpatch)⟩
  · cases hdocument : patched.toYaml with
    | error fault => exact ⟨1, .document h hpatch hdocument⟩
    | ok document => exact ⟨0, .success h hpatch hdocument⟩

/-- There is a rule for a run that gets to its target. -/
theorem Reaches.exists_exitsWith (h : Reaches arguments env read invocation settings target) :
    ∃ status, ExitsWith arguments env read status := by
  by_cases hname : isManifestPath target
  case neg => exact ⟨0, .otherFile h (by simpa using hname)⟩
  by_cases hfile : ∃ text manifest, read target = .ok text ∧ Manifest.ofYaml text = .ok manifest
  case neg =>
    refine ⟨2, .unreadable h hname fun text hread => ?_⟩
    cases hmanifest : Manifest.ofYaml text with
    | error fault => exact ⟨fault, rfl⟩
    | ok manifest => exact absurd ⟨text, manifest, hread, hmanifest⟩ hfile
  obtain ⟨text, manifest, hread, hmanifest⟩ := hfile
  obtain ⟨operations, hjob⟩ := h.exists_job
  exact Loads.exists_exitsWith ⟨h, hname, hjob, text, hread, hmanifest⟩

/-- The rules leave no run out. -/
theorem exists_exitsWith (arguments : List String) (env : Environment) (read : Reading) :
    ∃ status, ExitsWith arguments env read status := by
  cases hparse : parse arguments with
  | error ending =>
    cases ending with
    | usage => exact ⟨1, .usage hparse⟩
    | help => exact ⟨0, .help hparse⟩
    | version => exact ⟨0, .version hparse⟩
  | ok invocation =>
    by_cases hgiven : ∃ settings, Settings.Given read invocation.config settings
    case neg =>
      cases hconfig : invocation.config with
      | none => exact absurd ⟨.standard, hconfig ▸ .standard⟩ hgiven
      | some path =>
        refine ⟨1, .settings hparse hconfig fun text hread => ?_⟩
        cases hsettings : Settings.ofText? text with
        | none => rfl
        | some settings => exact absurd ⟨settings, hconfig ▸ .file hread hsettings⟩ hgiven
    obtain ⟨settings, hgiven⟩ := hgiven
    by_cases hinputs : invocation.command.HasInputs env
    case neg => exact ⟨1, .inputs hparse hgiven hinputs⟩
    by_cases hstamp : invocation.command.HasStamp env settings
    case neg => exact ⟨1, .stamp hparse hgiven hinputs hstamp⟩
    obtain ⟨target, operations, hjob⟩ := Command.exists_job_of_inputs hinputs hstamp
    obtain ⟨-, -, hnamed⟩ := Command.hasInputs_of_job hjob
    exact Reaches.exists_exitsWith ⟨hparse, hgiven, hinputs, hstamp, hnamed⟩

theorem exitsWith_iff : ExitsWith arguments env read status ↔
    programStatus arguments env read = status := by
  constructor
  · exact ExitsWith.programStatus_eq
  · rintro rfl
    obtain ⟨status, h⟩ := exists_exitsWith arguments env read
    rwa [h.programStatus_eq]

end Rules

/-- **The rules give the exit status of every run**, whatever its arguments and environment are and
wherever its files are kept, if what can be read can be written. Files in memory are so. -/
theorem status_iff_exitsWith :
    (∀ {σ : Type} (storage : Storage σ) (state : σ), storage.Writable state →
      ∀ arguments env status,
        ((program arguments env).runOn storage state).1.status = status ↔
          ExitsWith arguments env (storage.read state) status) ∧
    ∀ {machine : Machine} (files : Files machine) arguments env status,
      ((program arguments env).run files).1.status = status ↔
        ExitsWith arguments env files.read status := by
  have hrules {σ : Type} (storage : Storage σ) (state : σ) (hwrite : storage.Writable state)
      (arguments : List String) (env : Environment) (status : Nat) :
      ((program arguments env).runOn storage state).1.status = status ↔
        ExitsWith arguments env (storage.read state) status := by
    rw [status_program hwrite, exitsWith_iff]
  exact ⟨hrules, fun files => hrules Files.storage files files.writable⟩

/-- A storage of which nothing can be read. -/
def lockedStorage : Storage Unit where
  read _ _ := .error (.other "Permission denied (os error 13)")
  write _ _ _ := .error (.other "Permission denied (os error 13)")

theorem status_iff_exitsWith_locked :
    lockedStorage.Writable () ∧
      ((program ["metadata"] sampleEnvironment).runOn lockedStorage ()).1.status = 2 ∧
      ((program ["-c", "settings.toml", "metadata"] sampleEnvironment).runOn lockedStorage ()
        ).1.status = 1 := by
  have hwrite : lockedStorage.Writable () := fun path source hread => by cases hread
  refine ⟨hwrite, ?_, ?_⟩
  · have hparse : parse ["metadata"] = .ok ⟨.annotations, none, none, false, .summary⟩ := rfl
    have hjob : Command.annotations.job sampleEnvironment .standard =
        .ok (sampleTarget, Bundle.annotationsPatch .standard) := rfl
    obtain ⟨hinputs, hstamp, hnamed⟩ := Command.hasInputs_of_job hjob
    exact (status_iff_exitsWith.1 lockedStorage () hwrite _ _ 2).2
      (.unreadable ⟨hparse, .standard, hinputs, hstamp, hnamed⟩ (by decide)
        fun text hread => by cases hread)
  · -- the settings are looked at first
    have hparse : parse ["-c", "settings.toml", "metadata"] =
        .ok ⟨.annotations, some "settings.toml", none, false, .summary⟩ := by
      simp only [parse, Level.read]
      rfl
    exact (status_iff_exitsWith.1 lockedStorage () hwrite _ _ 1).2
      (.settings hparse rfl fun text hread => by cases hread)

end OperatorBundle
