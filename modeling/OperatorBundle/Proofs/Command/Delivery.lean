import OperatorBundle.Proofs.Command.Rerun

/-!
What a command does to files. All that can fail happens first, on what the target holds at the
start; then the target is written, or the document is printed. So a command that fails changes no
file, and one that succeeds changes its target only.

* `Command.leaves_of_run`: what a run leaves is a write to its target or nothing.
* `target_written_or_nothing`: the files that a run leaves, and what it prints, by how it ends.
-/

namespace OperatorBundle

open OperatorBundle.Bundle

namespace Command

variable {command : Command} {env : Environment} {settings : Settings} {error : CommandError}

/-! ### Inputs -/

/-- The errors of inputs and patch sets, of which each command has its own. -/
inductive Refused (env : Environment) (settings : Settings) : Command → CommandError → Prop
  | release {error : InputError} (h : ReleaseInputs.ofEnvironment env = .error error) :
      Refused env settings .serviceVersion (.inputs .serviceVersion error)
  | patchSet {inputs : ReleaseInputs} {error : InputError}
      (h : ReleaseInputs.ofEnvironment env = .ok inputs)
      (hpatch : serviceVersionPatch inputs settings = .error error) :
      Refused env settings .serviceVersion (.patchSet error)
  | annotations {error : InputError} (h : AnnotationInputs.ofEnvironment env = .error error) :
      Refused env settings .annotations (.inputs .annotations error)

theorem Refused.job (h : command.Refused env settings error) :
    command.job env settings = .error error := by
  cases h with
  | release h => simp only [Command.job, h]
  | patchSet h hpatch => simp only [Command.job, h, hpatch]
  | annotations h => simp only [Command.job, h]

theorem refused_of_job (h : command.job env settings = .error error) :
    command.Refused env settings error := by
  unfold job at h
  cases command with
  | serviceVersion =>
    cases hinputs : ReleaseInputs.ofEnvironment env with
    | error found =>
      simp only [hinputs, Except.error.injEq] at h
      obtain rfl := h
      exact .release hinputs
    | ok inputs =>
      cases hpatch : serviceVersionPatch inputs settings with
      | error found =>
        simp only [hinputs, hpatch, Except.error.injEq] at h
        obtain rfl := h
        exact .patchSet hinputs hpatch
      | ok operations => simp [hinputs, hpatch] at h
  | annotations =>
    cases hinputs : AnnotationInputs.ofEnvironment env with
    | error found =>
      simp only [hinputs, Except.error.injEq] at h
      obtain rfl := h
      exact .annotations hinputs
    | ok inputs => simp [hinputs] at h

/-! ### What a run leaves -/

variable {σ : Type} {storage : Storage σ} {options : Options} {state final : σ} {finish : Finish}

/-- What a run leaves, by how it ends. A run that fails, finds its target to be no manifest or is
dry leaves all as it was, and prints nothing in the first two cases. Any other run changes its
target, which held a manifest and now holds the patched document. -/
structure Leaves (command : Command) (env : Environment) (options : Options)
    (Changed : σ → σ → String → String → String → Prop) (state : σ) (finish : Finish) (final : σ) :
    Prop where
  failed (error : CommandError) (h : finish.status = .error error) :
    final = state ∧ finish.output = ""
  notApplicable (h : finish.status = .ok .notApplicable) : final = state ∧ finish.output = ""
  dry (hdry : options.dryRun = true) : final = state
  patched (report : Report) (h : finish.status = .ok (.patched report))
    (hdry : options.dryRun = false) : ∃ target operations source manifest text,
      command.job env options.settings = .ok (target, operations) ∧
      Manifest.ofYaml source = .ok manifest ∧
      patchedText options.policy target operations manifest = .ok (report, text) ∧
      Changed state final target source text

/-- **What a run leaves** is a write to its target, which it could read, or nothing. -/
theorem leaves_of_run {Changed : σ → σ → String → String → String → Prop}
    (hchanged : ∀ {state changed path old text}, storage.read state path = .ok old →
      storage.write state path text = .ok changed → Changed state changed path old text)
    (hrun : (command.plan env options).runOn storage state = (finish, final)) :
    command.Leaves env options Changed state finish final := by
  constructor
  case failed =>
    intro error hstatus
    exact unchanged_of_run hrun fun report h => by rw [hstatus] at h; cases h
  case notApplicable =>
    intro hstatus
    exact unchanged_of_run hrun fun report h => by rw [hstatus] at h; cases h
  case dry =>
    intro hdry
    rcases run_cases hrun with ⟨hfinal, -⟩ | ⟨ready, -, -, hfinal, -⟩
    · exact hfinal
    · exact hfinal hdry
  case patched =>
    intro report hstatus hdry
    obtain ⟨ready, hready, rfl, -, -, hwrite⟩ := exists_ready_of_run hrun hstatus
    obtain ⟨operations, source, manifest, hjob, -, hsource, hread, hpatched⟩ :=
      prepare_eq_ready.1 hready
    exact ⟨ready.target, operations, source, manifest, ready.text, hjob, hread, hpatched,
      hchanged hsource (hwrite hdry)⟩

end Command

/-- **A command writes its target or nothing**, wherever its files are kept. A run that fails, finds
its target to be no manifest or is dry leaves all files as they were, and prints nothing in the
first two cases. Any other run changes the bytes of one file, its target, which held a manifest and
now holds the patched document; among files in memory no other file or folder changes. Malformed
inputs and an impossible patch are reported whatever there is in the files. -/
theorem target_written_or_nothing :
    (∀ {σ : Type} {storage : Storage σ} (disk : Disk storage) (command : Command) env options
        state finish final,
      (command.plan env options).runOn storage state = (finish, final) →
      command.Leaves env options disk.Rewritten state finish final) ∧
    (∀ {machine : Machine} (command : Command) env options (files : Files machine) finish final,
      (command.plan env options).run files = (finish, final) →
      command.Leaves env options Files.Rewritten files finish final) ∧
    ∀ (command : Command) env options error, command.Refused env options.settings error →
      ∀ {σ : Type} (storage : Storage σ) (state : σ),
        (command.plan env options).runOn storage state = (.failed error, state) := by
  refine ⟨?_, ?_, ?_⟩
  · intro σ storage disk command env options state finish final hrun
    exact Command.leaves_of_run disk.rewritten_of_write hrun
  · intro machine command env options files finish final hrun
    exact Command.leaves_of_run Files.rewritten_of_write hrun
  · intro command env options error hrefused σ storage state
    simp only [Command.plan, hrefused.job]
    rfl

/-- A machine on which the annotations must not be read. -/
def lockedMachine : Machine where
  start := ["work"]
  barred _ := none
  locked place :=
    if place = ["bundle", "annotations.yaml"] then some "Permission denied (os error 13)" else none

/-- The annotations on this machine. -/
def lockedFiles : Files lockedMachine := ⟨sampleFiles.nodes⟩

theorem target_written_or_nothing_sample :
    (∃ report output final,
      (Command.annotations.plan sampleEnvironment sampleOptions).run sampleFiles =
        (⟨.ok (.patched report), output⟩, final) ∧
      (∃ source text, Files.disk.Rewritten sampleFiles final sampleTarget source text) ∧
      ∃ source text, sampleFiles.Rewritten final sampleTarget source text) ∧
    (∃ final, (Command.annotations.plan sampleEnvironment sampleOptions).run lockedFiles =
        (.failed (.manifest (.unreadable sampleTarget
          (.other "Permission denied (os error 13)"))), final) ∧ final = lockedFiles) ∧
    (∃ final, (Command.annotations.plan (.ofList [("TARGET_METADATA_ANNOTATIONS_FILE", "a.json")])
        sampleOptions).run sampleFiles = (⟨.ok .notApplicable, ""⟩, final) ∧ final = sampleFiles) ∧
    ∃ error, ∀ {σ : Type} (storage : Storage σ) (state : σ),
      (Command.annotations.plan (.ofList []) sampleOptions).runOn storage state =
        (.failed error, state) := by
  obtain ⟨hdisks, hfiles, hrefused⟩ := target_written_or_nothing
  refine ⟨?_, ?_, ?_, ?_⟩
  · obtain ⟨report, output, final, hrun⟩ := exists_run_sample
    have hdisk := hdisks Files.disk .annotations sampleEnvironment sampleOptions sampleFiles
      ⟨.ok (.patched report), output⟩ final hrun
    have hnodes := hfiles .annotations sampleEnvironment sampleOptions sampleFiles
      ⟨.ok (.patched report), output⟩ final hrun
    obtain ⟨target, operations, source, manifest, text, hjob, -, -, hbytes⟩ :=
      hdisk.patched report rfl rfl
    obtain ⟨target', operations', source', manifest', text', hjob', -, -, hnode⟩ :=
      hnodes.patched report rfl rfl
    obtain rfl : sampleTarget = target := congrArg Prod.fst (Except.ok.inj hjob)
    obtain rfl : sampleTarget = target' := congrArg Prod.fst (Except.ok.inj hjob')
    exact ⟨report, output, final, hrun, ⟨source, text, hbytes⟩, source', text', hnode⟩
  · have hrun : (Command.annotations.plan sampleEnvironment sampleOptions).run lockedFiles =
        (.failed (.manifest (.unreadable sampleTarget
          (.other "Permission denied (os error 13)"))), lockedFiles) := rfl
    exact ⟨_, hrun, ((hfiles _ _ _ _ _ _ hrun).failed _ rfl).1⟩
  · have hrun : (Command.annotations.plan
        (.ofList [("TARGET_METADATA_ANNOTATIONS_FILE", "a.json")]) sampleOptions).run sampleFiles =
        (⟨.ok .notApplicable, ""⟩, _) := rfl
    exact ⟨_, hrun, ((hfiles _ _ _ _ _ _ hrun).notApplicable rfl).1⟩
  · exact ⟨_, hrefused .annotations _ _ _ (.annotations rfl)⟩

end OperatorBundle
