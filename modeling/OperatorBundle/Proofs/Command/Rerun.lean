import OperatorBundle.Proofs.Bundle.EndState
import OperatorBundle.Proofs.Command.Preparation
import OperatorBundle.Proofs.Patch.DistinctKeys
import OperatorBundle.Proofs.Tree.Identity

/-!
Commands that are run again. A run that patched its target leaves a file that reads back as the
patched document; the patch leaves that document as it is, so the file gets the text that it has.
-/

namespace OperatorBundle

open OperatorBundle.Bundle OperatorBundle.Text

/-! ### The patches settle -/

/-- The operations that a command runs: the patch of a service version, or of the annotations. -/
def IsBundlePatch (operations : List Operation) : Prop :=
  (∃ inputs settings, serviceVersionPatch inputs settings = .ok operations) ∨
    ∃ settings, operations = annotationsPatch settings

/-- Whether an action settles, and puts in no repeated key. -/
def Operation.Repeatable (operation : Operation) : Prop :=
  operation.action.Settles ∧ operation.action.uniqueKeys

namespace Bundle

variable {inputs : ReleaseInputs} {settings : Settings} {operations : List Operation}

theorem uniqueKeys_maintainers (settings : Settings) : (maintainers settings).uniqueKeys := by
  simp [maintainers, Tree.KeysDiffer, Tree.same]

theorem repeatable_set (target : Locator) {value : Tree} (h : value.uniqueKeys) :
    (Operation.set target value).Repeatable := ⟨Action.settles_set value, h⟩

theorem repeatable_setText (target : Locator) (value : String) :
    (Operation.setText target value).Repeatable :=
  repeatable_set target (Tree.uniqueKeys_text value)

theorem repeatable_replaced (settings : Settings) (inputs : ReleaseInputs) :
    (replaced settings inputs).Repeatable := by
  unfold replaced
  cases inputs.release.previous? with
  | none => exact ⟨Action.settles_remove, rfl⟩
  | some previous => exact repeatable_setText _ _

theorem repeatable_serviceVersionPatch
    (h : serviceVersionPatch inputs settings = .ok operations) :
    ∀ operation ∈ operations, operation.Repeatable := by
  obtain ⟨stamps, hstamp, rfl⟩ := serviceVersionPatch_eq_ok.1 h
  have hstamps : ∀ operation ∈ stamps, operation.Repeatable := by
    rcases stamp_eq_ok hstamp with ⟨-, rfl⟩ | ⟨-, seconds, text, -, -, rfl⟩
    · simp
    · exact List.forall_mem_singleton.2 (repeatable_setText _ _)
  have hmaintainers := repeatable_set (.path "spec.maintainers") (uniqueKeys_maintainers settings)
  have hbrand : (Operation.replace (versionMark "description") "Quay" "Red Hat").Repeatable :=
    ⟨Action.settles_replace replaceAll_quay, rfl⟩
  have henv : (Operation.setEntries ((operatorContainer settings).key "env") "name" "value"
      (containerVariables settings inputs)).Repeatable :=
    ⟨Action.settles_setEntries _ (by decide), rfl⟩
  have hrelease : ∀ operation ∈ releaseOperations inputs settings stamps, operation.Repeatable := by
    simp only [releaseOperations, List.forall_mem_cons, List.forall_mem_append, repeatable_setText,
      repeatable_replaced, hmaintainers, hbrand, true_and]
    exact ⟨hstamps, by simp⟩
  have hdeployment : ∀ operation ∈ deploymentOperations inputs settings,
      operation.Repeatable := by
    simp only [deploymentOperations, List.forall_mem_cons, repeatable_setText, henv, true_and]
    simp
  exact List.forall_mem_append.2 ⟨hrelease, hdeployment⟩

theorem repeatable_annotationsPatch (settings : Settings) :
    ∀ operation ∈ annotationsPatch settings, operation.Repeatable := by
  simp [annotationsPatch, repeatable_setText]

end Bundle

namespace IsBundlePatch

variable {operations : List Operation}

theorem independent (h : IsBundlePatch operations) : Independent operations := by
  rcases h with ⟨inputs, settings, h⟩ | ⟨settings, rfl⟩
  · exact independent_serviceVersionPatch h
  · exact independent_annotationsPatch settings

theorem repeatable (h : IsBundlePatch operations) :
    ∀ operation ∈ operations, operation.Repeatable := by
  rcases h with ⟨inputs, settings, h⟩ | ⟨settings, rfl⟩
  · exact repeatable_serviceVersionPatch h
  · exact repeatable_annotationsPatch settings

end IsBundlePatch

theorem isBundlePatch_of_job {command : Command} {env : Environment} {settings : Settings}
    {target : String} {operations : List Operation}
    (h : command.job env settings = .ok (target, operations)) : IsBundlePatch operations := by
  cases Command.supplied_of_job h with
  | serviceVersion hinputs hpatch => exact .inl ⟨_, settings, hpatch⟩
  | annotations hinputs => exact .inr ⟨settings, rfl⟩

/-! ### Manifests that are patched again -/

section Manifest

variable {policy : Policy} {operations : List Operation} {target text : String}
  {manifest : Manifest} {report : Report}

/-- **A patched text that is patched again stays as it is.** -/
theorem patchedText_again {source : String} (hpatch : IsBundlePatch operations)
    (hread : Manifest.ofYaml source = .ok manifest)
    (hback : (manifest.patch policy operations).1.ReadsBack)
    (h : patchedText policy target operations manifest = .ok (report, text)) :
    ∃ again, Manifest.ofYaml text = .ok again ∧
      patchedText policy target operations again = .ok (report, text) := by
  obtain ⟨patched, hrun, htext⟩ := patchedText_eq_ok.1 h
  obtain ⟨hran, -⟩ := Manifest.patch_eq_ok.1 hrun
  have hind := hpatch.independent
  have hactions := fun operation hmem => (hpatch.repeatable operation hmem).2
  have hsettled := hran.settled hind fun operation hmem => (hpatch.repeatable operation hmem).1
  have hunique := Manifest.uniqueKeys_patch hactions (Manifest.uniqueKeys_of_ofYaml hread) policy
  rw [hrun] at hback hunique
  -- what is read back is like the patched document
  obtain ⟨found, hfound, hsame⟩ := Manifest.readsAs_iff.1 (Manifest.readsAs_of_toYaml hback htext)
  have halike : found.Alike patched.root := ⟨Tree.uniqueKeys_of_ofYaml hfound, hunique, hsame⟩
  obtain ⟨final, hagain, hfinal⟩ := hsettled.exists_ran_alike hind.atKeys hactions halike
  refine ⟨⟨found, some ⟨text, found⟩⟩, Manifest.ofYaml_eq_ok.2 ⟨found, hfound, rfl⟩, ?_⟩
  refine patchedText_eq_ok.2 ⟨⟨final, some ⟨text, found⟩⟩, Manifest.patch_eq_ok.2 ⟨hagain, rfl⟩, ?_⟩
  exact Manifest.toYaml_of_same rfl hfound (halike.trans hfinal.symm).same

end Manifest

/-! ### Runs -/

/-- Whether the document that a command leaves in its target reads back as it is, where it has to be
written anew. -/
def Command.ReadsBack (command : Command) (env : Environment) (options : Options)
    (read : Reading) : Prop :=
  ∀ target operations source manifest,
    command.job env options.settings = .ok (target, operations) →
    read target = .ok source → Manifest.ofYaml source = .ok manifest →
    (manifest.patch options.policy operations).1.ReadsBack

section Runs

variable {σ : Type} {storage : Storage σ} {command : Command} {env : Environment}
  {options : Options} {state final : σ} {report : Report} {output : String}

/-- A run that patched its target wrote a text to it, and a run that finds this text there, and can
write it, ends the same. -/
theorem exists_written_again (hdry : options.dryRun = false)
    (hback : command.ReadsBack env options (storage.read state))
    (hrun : (command.plan env options).runOn storage state =
      (⟨.ok (.patched report), output⟩, final)) :
    ∃ target source text, storage.read state target = .ok source ∧
      storage.write state target text = .ok final ∧
      ∀ again, storage.read final target = .ok text → storage.write final target text = .ok again →
        (command.plan env options).runOn storage final =
          (⟨.ok (.patched report), output⟩, again) := by
  obtain ⟨ready, hprepare, -, hfinish, -, hwrite⟩ := Command.exists_ready_of_run hrun rfl
  obtain ⟨operations, source, manifest, hjob, hpath, hsource, hread, hpatched⟩ :=
    Command.prepare_eq_ready.1 hprepare
  obtain ⟨found, hfound, hagain⟩ := patchedText_again (isBundlePatch_of_job hjob) hread
    (hback _ operations source manifest hjob hsource hread) hpatched
  refine ⟨ready.target, source, ready.text, hsource, hwrite hdry, fun again hleft hwritten => ?_⟩
  have hready : command.prepare env options.settings options.policy (storage.read final) =
      .ok (some ready) :=
    Command.prepare_eq_ready.2 ⟨operations, ready.text, found, hjob, hpath, hleft, hfound, hagain⟩
  rw [hdry] at hfinish
  rw [Command.runOn_of_written hdry hready hwritten, hfinish]
  rfl

end Runs

/-- **Both patches can be run again.** A patch that ended well ends so again, with the same report,
and leaves the document as it is, the order of its keys included. A command that patched its target
does the same again, with the same report and output, wherever its files are kept, and leaves the
bytes of all files as they are. Files in memory are left the same in all. -/
theorem bundle_patched_again :
    (∀ operations policy tree after report, IsBundlePatch operations →
      applyPatch policy operations tree = ⟨after, .ok report⟩ →
      applyPatch policy operations after = ⟨after, .ok report⟩) ∧
    (∀ {σ : Type} {storage : Storage σ} (disk : Disk storage) (command : Command) env options
        state final report output, options.dryRun = false →
      command.ReadsBack env options (storage.read state) →
      (command.plan env options).runOn storage state =
        (⟨.ok (.patched report), output⟩, final) →
      ∃ again, (command.plan env options).runOn storage final =
          (⟨.ok (.patched report), output⟩, again) ∧ disk.SameFiles final again) ∧
    ∀ {machine : Machine} (command : Command) env options (files final : Files machine) report
        output, options.dryRun = false →
      command.ReadsBack env options files.read →
      (command.plan env options).run files = (⟨.ok (.patched report), output⟩, final) →
      (command.plan env options).run final = (⟨.ok (.patched report), output⟩, final) := by
  refine ⟨?_, ?_, ?_⟩
  · intro operations policy tree after report hpatch hrun
    exact applyPatch_again hpatch.independent
      (fun operation hmem => (hpatch.repeatable operation hmem).1) hrun
  · intro σ storage disk command env options state final report output hdry hback hrun
    obtain ⟨target, source, text, hsource, hwrite, hruns⟩ := exists_written_again hdry hback hrun
    have hleft := disk.read_of_write hsource hwrite
    obtain ⟨again, hagain⟩ := disk.exists_write_of_write hsource hwrite
    exact ⟨again, hruns again hleft hagain, disk.sameFiles_of_write hleft hagain⟩
  · intro machine command env options files final report output hdry hback hrun
    have hfirst : (command.plan env options).runOn Files.storage files =
      (⟨.ok (.patched report), output⟩, final) := hrun
    obtain ⟨target, source, text, hsource, hwrite, hruns⟩ := exists_written_again hdry hback hfirst
    exact hruns final (Files.read_of_write hsource hwrite) (Files.write_of_write hwrite)

/-- The annotations of a bundle, with a comment. -/
def sampleText : String := "annotations:\n  a: b # c\n"

/-- These annotations, in a folder apart from the one that a run starts in. -/
def sampleFiles : Files :=
  ⟨[(["bundle"], .folder), (["bundle", "annotations.yaml"], .file (.text sampleText))]⟩

/-- Where the annotations are. -/
def sampleTarget : String := "/bundle/annotations.yaml"

/-- The environment of a run on them. -/
def sampleEnvironment : Environment :=
  .ofList [("TARGET_METADATA_ANNOTATIONS_FILE", sampleTarget)]

/-- Settings with short names. -/
def sampleSettings : Settings := { Settings.standard with operatorName := "q", channel := "c" }

/-- The options of a plain run. -/
def sampleOptions : Options := ⟨sampleSettings, none, false, .summary⟩

/-- The patch ends well, and the layout of the source is kept. -/
theorem exists_patched_sample :
    ∃ manifest patched report text, Manifest.ofYaml sampleText = .ok manifest ∧
      manifest.patch .ignore (annotationsPatch sampleSettings) = (patched, .ok report) ∧
      patched.preserved? = some text := by
  have hends : ((Manifest.ofYaml sampleText).map fun manifest =>
      (manifest.patch .ignore (annotationsPatch sampleSettings)).1.preserved?.isSome &&
        (manifest.patch .ignore (annotationsPatch sampleSettings)).2.isOk) = .ok true := by
    decide +kernel
  obtain ⟨manifest, hmanifest, hboth⟩ := map_eq_ok.1 hends
  obtain ⟨hkept, hok⟩ := Bool.and_eq_true_iff.1 hboth
  obtain ⟨text, htext⟩ := Option.isSome_iff_exists.1 hkept
  rcases hpatch : manifest.patch .ignore (annotationsPatch sampleSettings)
    with ⟨patched, error | report⟩
  · rw [hpatch] at hok
    cases hok
  · rw [hpatch] at htext
    exact ⟨manifest, patched, report, text, hmanifest, hpatch, htext⟩

/-- The command has the patched annotations ready. -/
theorem exists_ready_sample :
    ∃ manifest patched report text, Manifest.ofYaml sampleText = .ok manifest ∧
      manifest.patch .ignore (annotationsPatch sampleSettings) = (patched, .ok report) ∧
      patched.preserved? = some text ∧
      Command.annotations.prepare sampleEnvironment sampleOptions.settings sampleOptions.policy
        (Files.storage.read sampleFiles) = .ok (some ⟨sampleTarget, report, text⟩) := by
  obtain ⟨manifest, patched, report, text, hmanifest, hpatch, htext⟩ := exists_patched_sample
  have hpatched : patchedText .ignore sampleTarget (annotationsPatch sampleSettings) manifest =
      .ok (report, text) := patchedText_eq_ok.2 ⟨patched, hpatch, by rw [Manifest.toYaml, htext]⟩
  have hpath : isManifestPath sampleTarget := rfl
  have hread : sampleFiles.read sampleTarget = .ok sampleText := rfl
  exact ⟨manifest, patched, report, text, hmanifest, hpatch, htext, Command.prepare_eq_ready.2
    ⟨_, sampleText, manifest, rfl, hpath, hread, hmanifest, hpatched⟩⟩

/-- A run on the annotations patches them. -/
theorem exists_run_sample :
    ∃ report output final, (Command.annotations.plan sampleEnvironment sampleOptions).run
      sampleFiles = (⟨.ok (.patched report), output⟩, final) := by
  obtain ⟨manifest, patched, report, text, -, -, -, hready⟩ := exists_ready_sample
  obtain ⟨final, hrun⟩ := Command.exists_run_of_ready sampleFiles.writable hready
  exact ⟨report, _, final, hrun⟩

/-- The document keeps its layout, so nothing is asked of the writer. -/
theorem readsBack_sample :
    Command.annotations.ReadsBack sampleEnvironment sampleOptions sampleFiles.read := by
  obtain ⟨manifest, patched, report, text, hmanifest, hpatch, htext, -⟩ := exists_ready_sample
  have hjob : Command.annotations.job sampleEnvironment sampleOptions.settings =
      .ok (sampleTarget, annotationsPatch sampleSettings) := rfl
  have hread : sampleFiles.read sampleTarget = .ok sampleText := rfl
  intro target operations source found hjob' hsource hfound
  rw [hjob] at hjob'
  obtain ⟨rfl, rfl⟩ := Prod.mk.inj (Except.ok.inj hjob')
  obtain rfl := Except.ok.inj (hread.symm.trans hsource)
  obtain rfl := Except.ok.inj (hmanifest.symm.trans hfound)
  have hpatched : (manifest.patch sampleOptions.policy (annotationsPatch sampleSettings)).1 =
      patched := congrArg Prod.fst hpatch
  rw [hpatched]
  exact Manifest.readsBack_of_preserved htext

/-- The patch of a service version renames the deployment that its other operations look up. -/
theorem exists_renamed_sample :
    ∃ after report, applyPatch .fail sampleOperations sample = ⟨after, .ok report⟩ ∧
      after.resolve? ((operatorDeployment .standard).key "name").segments =
        some (.text "quay-operator.v3.14.0") := by
  have hends : (applyPatch .fail sampleOperations sample).result.isOk := by
    decide +kernel
  have hset : serviceVersionPatch sampleInputs .standard = .ok sampleOperations := rfl
  have hrename : Operation.set ((operatorDeployment .standard).key "name")
      (.text "quay-operator.v3.14.0") ∈ sampleOperations :=
    List.mem_append_right _ (List.mem_cons_self ..)
  rcases hrun : applyPatch .fail sampleOperations sample with ⟨after, error | report⟩
  · rw [hrun] at hends
    cases hends
  · exact ⟨after, report, rfl, (applyPatch_eq_ok.1 hrun).resolve?_set
      (independent_serviceVersionPatch hset) hrename⟩

theorem sample_patched_again :
    (∃ after report, applyPatch .fail sampleOperations sample = ⟨after, .ok report⟩ ∧
      after.resolve? ((operatorDeployment .standard).key "name").segments =
        some (.text "quay-operator.v3.14.0") ∧
      applyPatch .fail sampleOperations after = ⟨after, .ok report⟩) ∧
    (∃ after report, applyPatch .fail (annotationsPatch sampleSettings)
        (.mapping [(.text "annotations", .mapping [])]) = ⟨after, .ok report⟩ ∧
      applyPatch .fail (annotationsPatch sampleSettings) after = ⟨after, .ok report⟩) ∧
    ∃ final again report output, (Command.annotations.plan sampleEnvironment sampleOptions).run
        sampleFiles = (⟨.ok (.patched report), output⟩, final) ∧
      (Command.annotations.plan sampleEnvironment sampleOptions).run final =
        (⟨.ok (.patched report), output⟩, final) ∧
      (Command.annotations.plan sampleEnvironment sampleOptions).runOn Files.storage final =
        (⟨.ok (.patched report), output⟩, again) ∧ Files.disk.SameFiles final again := by
  obtain ⟨htrees, hdisks, hfiles⟩ := bundle_patched_again
  refine ⟨?_, ?_, ?_⟩
  · obtain ⟨after, report, hrun, hname⟩ := exists_renamed_sample
    have hpatch : IsBundlePatch sampleOperations := .inl ⟨sampleInputs, .standard, rfl⟩
    have hagain := htrees sampleOperations .fail sample after report hpatch hrun
    exact ⟨after, report, hrun, hname, hagain⟩
  · have hrun : ∃ after report, applyPatch .fail (annotationsPatch sampleSettings)
        (.mapping [(.text "annotations", .mapping [])]) = ⟨after, .ok report⟩ := ⟨_, _, rfl⟩
    obtain ⟨after, report, hrun⟩ := hrun
    exact ⟨after, report, hrun, htrees _ _ _ _ _ (.inr ⟨_, rfl⟩) hrun⟩
  · obtain ⟨report, output, final, hrun⟩ := exists_run_sample
    obtain ⟨again, hagain, hsame⟩ := hdisks Files.disk .annotations sampleEnvironment
      sampleOptions sampleFiles final report output rfl readsBack_sample hrun
    have hsecond := hfiles .annotations sampleEnvironment sampleOptions sampleFiles final report
      output rfl readsBack_sample hrun
    exact ⟨final, again, report, output, hrun, hsecond, hagain, hsame⟩

end OperatorBundle
