import OperatorBundle.CommandLine.Run
import OperatorBundle.Proofs.Command.Delivery
import OperatorBundle.Proofs.Json.RoundTrip

/-!
Dry runs beside real ones. Both prepare the same, so they end alike, and the document that the one
prints is the one that the other stores: in a summary it stands first, and in JSON it is the value
of a member, from which a reader gets it back whatever characters it holds.
-/

namespace OperatorBundle

open OperatorBundle.CommandLine

/-! ### Outputs -/

/-- The text of the member `manifest` of what is printed as JSON. -/
def manifestMember? (output : String) : Option String :=
  match Json.ofText? output with
  | some (.object members) => (Json.member? "manifest" members).bind Report.jsonText?
  | _ => none

/-- Whether what a dry run prints carries a document: in JSON as a member, in a summary before the
lines about the run. -/
def Carries (format : Format) (target : String) (report : Report) (output text : String) : Prop :=
  match format with
  | .summary =>
    output = text ++ String.join ((summaryLines target report true).map fun line => line ++ "\n")
  | .json => manifestMember? output = some text

theorem Report.proper_recordJson (record : Record) : (recordJson record).Proper := by
  refine .object ?_
  simp only [List.forall_mem_cons]
  exact ⟨.string _, .string _, .string _, List.forall_mem_nil _⟩

theorem proper_outputJson (report : Report) (document : Option String) :
    (outputJson report document).Proper := by
  have hrecords : (Json.array (report.records.map Report.recordJson)).Proper := by
    refine .array fun json hjson => ?_
    obtain ⟨record, -, rfl⟩ := List.mem_map.1 hjson
    exact Report.proper_recordJson record
  refine .object (List.forall_mem_append.2 ⟨List.forall_mem_singleton.2 hrecords, ?_⟩)
  cases document with
  | none => exact List.forall_mem_nil _
  | some text => exact List.forall_mem_singleton.2 (.string text)

/-- **What a dry run prints carries the document**, in either format. -/
theorem carries_outputText (format : Format) (target : String) (report : Report) (text : String) :
    Carries format target report (outputText format target report (some text)) text := by
  cases format with
  | summary => rfl
  | json =>
    have hread := Json.ofText?_pretty (proper_outputJson report (some text))
    simp only [Carries, manifestMember?, outputText, hread]
    simp [outputJson, Json.member?, Report.jsonText?]

/-! ### The two runs -/

/-- Whether a dry run shows what a real run does. It leaves all files. The two end with one exit
status: both fail with the same error, both find their target to be no manifest, or both patch it
with the same report. Then what the real run leaves in the target is the document that the dry run
carries. -/
def Command.ShownByDryRun (command : Command) (env : Environment) (options : Options) {σ : Type}
    {storage : Storage σ} (disk : Disk storage) (state : σ) : Prop :=
  ∃ dry real final,
    (command.plan env { options with dryRun := true }).runOn storage state = (dry, state) ∧
    (command.plan env { options with dryRun := false }).runOn storage state = (real, final) ∧
    (commandExit dry).status = (commandExit real).status ∧
    ((∃ error, dry = .failed error ∧ real = .failed error ∧ final = state) ∨
      (dry = ⟨.ok .notApplicable, ""⟩ ∧ real = ⟨.ok .notApplicable, ""⟩ ∧ final = state) ∨
      ∃ target operations report text,
        command.job env options.settings = .ok (target, operations) ∧
        dry.status = .ok (.patched report) ∧ real.status = .ok (.patched report) ∧
        storage.read final target = .ok text ∧ disk.Holds final target text ∧
        Carries options.format target report dry.output text)

/-- **A dry run shows what a real run does**, wherever the files are kept, if what can be read can
be written. Files in memory are so. -/
theorem dry_run_shows_real_run :
    (∀ {σ : Type} {storage : Storage σ} (disk : Disk storage) (state : σ),
      storage.Writable state → ∀ (command : Command) env options,
        command.ShownByDryRun env options disk state) ∧
    ∀ {machine : Machine} (files : Files machine) (command : Command) env options,
      command.ShownByDryRun env options Files.disk files := by
  have hshown {σ : Type} {storage : Storage σ} (disk : Disk storage) (state : σ)
      (hwritable : storage.Writable state) (command : Command) (env : Environment)
      (options : Options) : command.ShownByDryRun env options disk state := by
    rcases hprepare : command.prepare env options.settings options.policy (storage.read state)
      with error | _ | ready
    · have hall (dryRun : Bool) :
          (command.plan env { options with dryRun := dryRun }).runOn storage state =
            (.failed error, state) := Command.runOn_of_error hprepare
      exact ⟨_, _, _, hall true, hall false, rfl, .inl ⟨error, rfl, rfl, rfl⟩⟩
    · have hall (dryRun : Bool) :
          (command.plan env { options with dryRun := dryRun }).runOn storage state =
            (⟨.ok .notApplicable, ""⟩, state) := Command.runOn_of_none hprepare
      exact ⟨_, _, _, hall true, hall false, rfl, .inr (.inl ⟨rfl, rfl, rfl⟩)⟩
    · obtain ⟨operations, source, manifest, hjob, -, hsource, -⟩ :=
        Command.prepare_eq_ready.1 hprepare
      obtain ⟨final, hwrite⟩ := hwritable ready.target source hsource ready.text
      have hdry : (command.plan env { options with dryRun := true }).runOn storage state =
          (.patched { options with dryRun := true } ready.target ready.report (some ready.text),
            state) := Command.runOn_of_dry rfl hprepare
      have hreal : (command.plan env { options with dryRun := false }).runOn storage state =
          (.patched { options with dryRun := false } ready.target ready.report none, final) :=
        Command.runOn_of_written rfl hprepare hwrite
      have hread := disk.read_of_write hsource hwrite
      exact ⟨_, _, final, hdry, hreal, rfl, .inr (.inr ⟨ready.target, operations, ready.report,
        ready.text, hjob, rfl, rfl, hread, disk.holds_of_read hread, carries_outputText _ _ _ _⟩)⟩
  exact ⟨hshown, fun files => hshown Files.disk files files.writable⟩

/-- Both runs patch the sample, and what the dry run prints is what the real one leaves. -/
theorem dry_run_shows_real_run_sample :
    Files.storage.Writable sampleFiles ∧
      ∃ dry real final report text,
        (Command.annotations.plan sampleEnvironment { sampleOptions with dryRun := true }).run
          sampleFiles = (dry, sampleFiles) ∧
        (Command.annotations.plan sampleEnvironment { sampleOptions with dryRun := false }).run
          sampleFiles = (real, final) ∧
        dry.status = .ok (.patched report) ∧ real.status = .ok (.patched report) ∧
        final.read sampleTarget = .ok text ∧
        Carries .summary sampleTarget report dry.output text := by
  refine ⟨sampleFiles.writable, ?_⟩
  obtain ⟨report, output, final, hrun⟩ := exists_run_sample
  obtain ⟨dry, real, final', hdry, hreal, -, hends⟩ := dry_run_shows_real_run.1 Files.disk
    sampleFiles sampleFiles.writable .annotations sampleEnvironment sampleOptions
  obtain ⟨rfl, rfl⟩ := Prod.mk.inj (hrun.symm.trans hreal)
  rcases hends with ⟨error, -, hfailed, -⟩ | ⟨-, hskipped, -⟩ |
    ⟨target, operations, report', text, hjob, hdryStatus, hrealStatus, hread, -, hcarries⟩
  · cases hfailed
  · cases hskipped
  · obtain rfl : sampleTarget = target := congrArg Prod.fst (Except.ok.inj hjob)
    exact ⟨dry, _, final, report', text, hdry, hreal, hdryStatus, hrealStatus, hread, hcarries⟩

end OperatorBundle
