import OperatorBundle.Proofs.Command.Rerun
import OperatorBundle.Proofs.Manifest.History

/-!
Targets that are loaded again. The text of a manifest reads back as the manifest, whatever the
manifest went through; so a command leaves a file that is loaded as the document it made.
-/

namespace OperatorBundle

open OperatorBundle.Bundle

/-- A run that succeeds on the manifest that it loads writes what the patch makes of it. -/
theorem exists_written_of_load {σ : Type} {storage : Storage σ} {command : Command}
    {env : Environment} {options : Options} {state final : σ} {target output : String}
    {operations : List Operation} {manifest : Manifest} {status : Status}
    (hdry : options.dryRun = false)
    (hjob : command.job env options.settings = .ok (target, operations))
    (hload : (Manifest.load target).runOn storage state = (.ok (some manifest), state))
    (hrun : (command.plan env options).runOn storage state = (⟨.ok status, output⟩, final)) :
    ∃ report text, patchedText options.policy target operations manifest = .ok (report, text) ∧
      storage.write state target text = .ok final := by
  obtain ⟨hpath, source, hsource, hread⟩ := runOn_load_eq.1 hload
  have hprepare : command.prepare env options.settings options.policy (storage.read state) = _ :=
    Command.prepare_of_manifest hjob hpath hsource hread
  cases hpatched : patchedText options.policy target operations manifest with
  | error error =>
    rw [hpatched] at hprepare
    rw [Command.runOn_of_error hprepare] at hrun
    cases hrun
  | ok found =>
    rw [hpatched] at hprepare
    rw [Command.runOn_of_ready hdry hprepare] at hrun
    cases hwrite : storage.write state target found.2 with
    | error fault =>
      simp only [hwrite] at hrun
      cases hrun
    | ok changed =>
      simp only [hwrite] at hrun
      obtain rfl := (Prod.mk.inj hrun).2
      exact ⟨found.1, found.2, rfl, hwrite⟩

/-- **The layout never changes the meaning.** Whatever a manifest went through, a text that it gives
out reads back as the manifest, if it does where it has to be written anew. A command that succeeds
on a manifest, and does not only show what it would do, leaves a file that is loaded as what the
patch made of that manifest, wherever its files are kept. -/
theorem reloaded_as_left :
    (∀ (start : Manifest) events text, (start.source = none ∧ start.root.uniqueKeys ∨
        ∃ source, Manifest.ofYaml source = .ok start) →
      (∀ event ∈ events, event.uniqueKeys) → (start.after events).ReadsBack →
      (start.after events).toYaml = .ok text →
      ∃ again, Manifest.ofYaml text = .ok again ∧ again.same (start.after events) ∧
        (start.after events).same again) ∧
    ∀ {σ : Type} {storage : Storage σ}, Disk storage → ∀ (command : Command) env options state
        final target operations manifest status output, options.dryRun = false →
      command.job env options.settings = .ok (target, operations) →
      (Manifest.load target).runOn storage state = (.ok (some manifest), state) →
      (manifest.patch options.policy operations).1.ReadsBack →
      (command.plan env options).runOn storage state = (⟨.ok status, output⟩, final) →
      ∃ again, (Manifest.load target).runOn storage final = (.ok (some again), final) ∧
        again.same (manifest.patch options.policy operations).1 ∧
        (manifest.patch options.policy operations).1.same again := by
  constructor
  · intro start events text hstart hevents hback htext
    have hsound : start.Sound := by
      rcases hstart with ⟨hsource, hroot⟩ | ⟨source, hread⟩
      · exact Manifest.sound_of_source_eq_none hsource hroot
      · exact Manifest.sound_ofYaml hread
    obtain ⟨again, hagain, halike⟩ := (hsound.after hevents).exists_reloaded hback htext
    exact ⟨again, hagain, halike.same, halike.symm.same⟩
  · intro σ storage disk command env options state final target operations manifest status output
      hdry hjob hload hback hrun
    obtain ⟨report, text, hpatched, hwrite⟩ := exists_written_of_load hdry hjob hload hrun
    obtain ⟨hpath, source, hsource, hread⟩ := runOn_load_eq.1 hload
    obtain ⟨patched, hpatch, htext⟩ := patchedText_eq_ok.1 hpatched
    have hactions := fun operation hmem =>
      ((isBundlePatch_of_job hjob).repeatable operation hmem).2
    have hsound := (Manifest.sound_ofYaml hread).patch hactions options.policy
    rw [hpatch] at hback hsound ⊢
    obtain ⟨again, hagain, halike⟩ := hsound.exists_reloaded hback htext
    exact ⟨again, runOn_load_eq.2 ⟨hpath, text, disk.read_of_write hsource hwrite, hagain⟩,
      halike.same, halike.symm.same⟩

/-- The sample is patched, written, and loaded again. -/
theorem sample_reloaded_as_left :
    ∃ manifest text final output report,
      Manifest.ofYaml sampleText = .ok manifest ∧
      (manifest.after [.patch .ignore (annotationsPatch sampleSettings), .dump]).toYaml =
        .ok text ∧
      (∃ again, Manifest.ofYaml text = .ok again ∧
        again.same (manifest.after [.patch .ignore (annotationsPatch sampleSettings), .dump])) ∧
      (Command.annotations.plan sampleEnvironment sampleOptions).run sampleFiles =
        (⟨.ok (.patched report), output⟩, final) ∧
      ∃ again, (Manifest.load sampleTarget).run final = (.ok (some again), final) ∧
        again.same (manifest.patch .ignore (annotationsPatch sampleSettings)).1 := by
  obtain ⟨manifest, patched, report, text, hmanifest, hpatch, htext, -⟩ := exists_ready_sample
  obtain ⟨found, output, final, hrun⟩ := exists_run_sample
  have hafter : (manifest.patch .ignore (annotationsPatch sampleSettings)).1 = patched :=
    congrArg Prod.fst hpatch
  -- the document keeps its layout, so nothing is asked of the writer
  have hback : (manifest.patch .ignore (annotationsPatch sampleSettings)).1.ReadsBack := by
    rw [hafter]
    exact Manifest.readsBack_of_preserved htext
  have hyaml : (manifest.patch .ignore (annotationsPatch sampleSettings)).1.toYaml = .ok text := by
    rw [hafter, Manifest.toYaml, htext]
  have hjob : Command.annotations.job sampleEnvironment sampleOptions.settings =
      .ok (sampleTarget, annotationsPatch sampleSettings) := rfl
  have hpath : isManifestPath sampleTarget := rfl
  have hsource : Files.storage.read sampleFiles sampleTarget = .ok sampleText := rfl
  obtain ⟨again, hagain, hsame, -⟩ :=
    reloaded_as_left.1 manifest [.patch .ignore (annotationsPatch sampleSettings), .dump] text
      (.inr ⟨sampleText, hmanifest⟩) (by decide) hback hyaml
  obtain ⟨loaded, hloaded, hsame', -⟩ := reloaded_as_left.2 Files.disk .annotations
    sampleEnvironment sampleOptions sampleFiles final sampleTarget
    (annotationsPatch sampleSettings) manifest (.patched found) output rfl hjob
    (runOn_load_eq.2 ⟨hpath, sampleText, hsource, hmanifest⟩) hback hrun
  exact ⟨manifest, text, final, output, found, hmanifest, hyaml, ⟨again, hagain, hsame⟩, hrun,
    loaded, hloaded, hsame'⟩

end OperatorBundle
