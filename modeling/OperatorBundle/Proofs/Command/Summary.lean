import OperatorBundle.Proofs.Command.JsonOutput
import OperatorBundle.Proofs.Layout.LineEnds
import OperatorBundle.Proofs.Locator.Written
import OperatorBundle.Proofs.Patch.Sequence

/-!
What a dry run prints in its summary: the document, and behind it the lines about the run. Nothing
is put between them, so they stand on lines of their own if and only if the document ends its last
line. It does if its source does, as long as the layout of the source is kept; a document that is
written anew does unless it ends in a literal with a separator at its end.

* `summary_apart_iff`: when the lines about a run are lines of their own.
* `summary_glued`: a document that does not end its last line.
-/

namespace OperatorBundle

open OperatorBundle.Text OperatorBundle.Layout OperatorBundle.Bundle

/-! ### Texts without line feeds -/

theorem feed_notMem_toDigits (base : Nat) (hone : 1 < base) (hbase : base ≤ 16) (n : Nat) :
    '\n' ∉ Nat.toDigits base n := by
  intro h
  have hdigit := digitIn?_of_mem_toDigits hone hbase h
  have hfeed : digitValue? '\n' = none := by decide
  simp [digitIn?, hfeed] at hdigit

theorem feed_notMem_append {s t : String} :
    '\n' ∉ (s ++ t).toList ↔ '\n' ∉ s.toList ∧ '\n' ∉ t.toList := by
  rw [String.toList_append, List.mem_append, not_or]

theorem feed_notMem_quoted (cs : List Char) : '\n' ∉ quoted cs := by
  have hchar (c : Char) : '\n' ∉ quotedChar c := by
    have hcode := feed_notMem_toDigits 16 (by decide) (by decide) c.toNat
    unfold quotedChar
    split_ifs with hnull htab hreturn hfeed hmark
    · decide
    · decide
    · decide
    · decide
    · rw [Bool.or_eq_true, decide_eq_true_eq, decide_eq_true_eq] at hmark
      rcases hmark with rfl | rfl <;> decide
    · simp [hcode]
    · simpa using Ne.symm hfeed
  simp [quoted, hchar]

theorem feed_notMem_plainKey {name : String} (h : isPlainKey name) : '\n' ∉ name.toList := by
  intro hfeed
  have hplain := (isPlainKey_iff.1 h).2 _ hfeed
  revert hplain
  decide

theorem Segment.feed_notMem_text {segment : Segment} (h : segment.HasPlainField) :
    '\n' ∉ segment.text := by
  cases segment with
  | key name =>
    by_cases hplain : isPlainKey name
    · simp [Segment.text, hplain, feed_notMem_plainKey hplain]
    · simp [Segment.text, hplain, feed_notMem_quoted]
  | index position =>
    have hdigits := feed_notMem_toDigits 10 (by decide) (by decide) position
    simp [Segment.text, decimal, hdigits]
  | find selector =>
    have hsign : '\n' ∉ selector.matcher.sign := by
      cases selector.matcher <;> simp [Matcher.sign]
    simp [Segment.text, feed_notMem_plainKey h, feed_notMem_quoted, hsign]

/-- A locator is written on one line. -/
theorem Locator.feed_notMem_text {locator : Locator} (h : locator.HasPlainFields) :
    '\n' ∉ locator.text.toList := by
  have hflat : '\n' ∉ locator.segments.flatMap Segment.text := by
    rw [List.mem_flatMap]
    rintro ⟨segment, hsegment, hfeed⟩
    exact Segment.feed_notMem_text (h segment hsegment) hfeed
  unfold Locator.text
  split
  · decide
  · next rest hrest =>
    rw [hrest] at hflat
    rw [String.toList_ofList]
    exact fun hfeed => hflat (List.mem_cons_of_mem _ hfeed)
  · rwa [String.toList_ofList]

/-! ### Targets of the commands -/

theorem Segment.hasPlainField_of_not_isFind {segment : Segment} (h : segment.isFind = false) :
    segment.HasPlainField := by
  cases segment with
  | key name => trivial
  | index position => trivial
  | find selector => cases h

namespace Locator

theorem hasPlainFields_path (dotted : String) : (path dotted).HasPlainFields := by
  intro segment hsegment
  obtain ⟨key, -, rfl⟩ := List.mem_map.1 hsegment
  trivial

theorem HasPlainFields.below {locator : Locator} (h : locator.HasPlainFields) {segment : Segment}
    (hsegment : segment.HasPlainField) : (locator.below segment).HasPlainFields := by
  intro other hother
  rcases List.mem_append.1 hother with hother | hother
  · exact h other hother
  · rwa [List.mem_singleton.1 hother]

end Locator

/-- The deployment and the container of the operator are found by their names. -/
theorem hasPlainFields_operatorContainer (settings : Settings) :
    (operatorDeployment settings).HasPlainFields ∧
      (operatorContainer settings).HasPlainFields := by
  have hname : (Segment.find ⟨"name", .contains settings.operatorName⟩).HasPlainField := by
    show isPlainKey "name"
    decide
  have hdeployment : (operatorDeployment settings).HasPlainFields :=
    (Locator.hasPlainFields_path _).below hname
  have hkey (name : String) : (Segment.key name).HasPlainField := trivial
  exact ⟨hdeployment, ((((hdeployment.below (hkey _)).below (hkey _)).below (hkey _)).below
    (hkey _)).below hname⟩

theorem hasPlainFields_of_isBundlePatch {operations : List Operation}
    (h : IsBundlePatch operations) :
    ∀ operation ∈ operations, operation.target.HasPlainFields := by
  have hkey (name : String) : (Segment.key name).HasPlainField := trivial
  rcases h with ⟨inputs, settings, h⟩ | ⟨settings, rfl⟩
  · obtain ⟨stamps, hstamp, rfl⟩ := serviceVersionPatch_eq_ok.1 h
    rw [List.forall_mem_append]
    constructor
    · have htargets : ∀ target ∈ releaseTargets settings.stampCreatedAt,
          ∀ segment ∈ target, segment.isFind = false := by
        cases settings.stampCreatedAt <;> decide
      intro operation hmem segment hsegment
      refine Segment.hasPlainField_of_not_isFind (htargets _ ?_ segment hsegment)
      rw [← map_target_releaseOperations hstamp]
      exact List.mem_map_of_mem hmem
    · obtain ⟨hdeployment, hcontainer⟩ := hasPlainFields_operatorContainer settings
      rw [deploymentOperations, List.forall_mem_cons, List.forall_mem_cons,
        List.forall_mem_singleton]
      exact ⟨hdeployment.below (hkey _), hcontainer.below (hkey _), hcontainer.below (hkey _)⟩
  · have hmark (name : String) : (bundleMark name).HasPlainFields :=
      (Locator.hasPlainFields_path _).below (hkey _)
    rw [annotationsPatch, List.forall_mem_cons, List.forall_mem_cons, List.forall_mem_singleton]
    exact ⟨hmark _, hmark _, hmark _⟩

/-! ### Lines about a run -/

theorem feed_notMem_missedPaths {policy : Policy} {operations : List Operation}
    {manifest patched : Manifest} {report : Report} (hoperations : IsBundlePatch operations)
    (hpatch : manifest.patch policy operations = (patched, .ok report)) :
    ∀ path ∈ report.missedPaths, '\n' ∉ path.toList := by
  intro path hpath
  obtain ⟨record, hrecord, rfl⟩ := List.mem_map.1 hpath
  obtain ⟨hmem, -⟩ := List.mem_filter.1 hrecord
  -- a record has the path of its operation
  have htells : List.Forall₂ (flip Record.Tells) report.records operations :=
    (Manifest.patch_eq_ok.1 hpatch).1.tells.flip
  obtain ⟨operation, hoperation, hrecorded⟩ := Tree.exists_of_forall₂ htells hmem
  rw [hrecorded.1]
  exact Locator.feed_notMem_text (hasPlainFields_of_isBundlePatch hoperations operation hoperation)

theorem feed_notMem_countText (report : Report) (outcome : Outcome) :
    '\n' ∉ (report.countText outcome).toList := by
  rw [Report.countText, String.toList_ofList]
  exact feed_notMem_toDigits 10 (by decide) (by decide) _

/-- The lines about a run are lines, if the name of the target is on one line. -/
theorem feed_notMem_summaryLines {target : String} {report : Report}
    (htarget : '\n' ∉ target.toList)
    (hpaths : ∀ path ∈ report.missedPaths, '\n' ∉ path.toList) (dryRun : Bool) :
    ∀ line ∈ summaryLines target report dryRun, '\n' ∉ line.toList := by
  rw [summaryLines, List.forall_mem_cons]
  constructor
  · have hword : '\n' ∉ (if dryRun then "Dry run of" else "Patched").toList := by
      cases dryRun <;> decide
    have hcounts := feed_notMem_countText report
    delta summaryLine
    simp only [feed_notMem_append, hword, htarget, hcounts, not_false_eq_true, and_true]
    decide
  · intro line hline
    obtain ⟨path, hpath, rfl⟩ := List.mem_map.1 hline
    simp [hpaths path hpath]

/-- Texts that end with line feeds have their lines one after the other. -/
theorem lines_flatMap (texts : List String) :
    lines (texts.flatMap fun text => (text ++ "\n").toList) =
      texts.flatMap fun text => lines (text ++ "\n").toList := by
  induction texts with
  | nil => rfl
  | cons text more ih =>
    have hended : (text ++ "\n").toList.getLast? = some '\n' := by simp
    rw [List.flatMap_cons, List.flatMap_cons, lines_append_of_ended hended, ih]

/-- Whether a summary keeps the document and what is said of the run apart: the lines of the output
are those of the document and then those of the summary. -/
def SummaryApart (target : String) (report : Report) (document output : String) : Prop :=
  lines output.toList = lines document.toList ++
    (summaryLines target report true).flatMap fun line => lines (line ++ "\n").toList

theorem summaryApart_iff {target : String} {report : Report} {document : String} :
    SummaryApart target report document (summaryText target report (some document)) ↔
      EndsLines document.toList := by
  have houtput : (summaryText target report (some document)).toList = document.toList ++
      (summaryLines target report true).flatMap fun line => (line ++ "\n").toList := by
    rw [summaryText, String.toList_append, String.toList_join, List.flatMap_map]
    rfl
  have hsome : ((summaryLines target report true).flatMap fun line => (line ++ "\n").toList) ≠
      [] := by
    simp [summaryLines]
  rw [SummaryApart, houtput, ← lines_flatMap, lines_append_iff hsome]

/-! ### Dry runs -/

variable {σ : Type} {storage : Storage σ} {command : Command} {env : Environment}
  {options : Options} {state final : σ} {report : Report} {output : String}

/-- A dry run that succeeds, with all that it goes through. -/
theorem exists_of_dry_run (hdry : options.dryRun = true)
    (hrun : (command.plan env options).runOn storage state =
      (⟨.ok (.patched report), output⟩, final)) :
    ∃ target operations source manifest patched text,
      command.job env options.settings = .ok (target, operations) ∧
      storage.read state target = .ok source ∧ Manifest.ofYaml source = .ok manifest ∧
      manifest.patch options.policy operations = (patched, .ok report) ∧
      patched.toYaml = .ok text ∧
      output = outputText options.format target report (some text) := by
  obtain ⟨ready, hready, rfl, hfinish, -⟩ := Command.exists_ready_of_run hrun rfl
  obtain ⟨operations, source, manifest, hjob, -, hsource, hread, hpatched⟩ :=
    Command.prepare_eq_ready.1 hready
  obtain ⟨patched, hpatch, htext⟩ := patchedText_eq_ok.1 hpatched
  rw [hdry] at hfinish
  exact ⟨ready.target, operations, source, manifest, patched, ready.text, hjob, hsource, hread,
    hpatch, htext, (Finish.mk.inj hfinish).2⟩

/-- A dry run on a target whose manifest is patched. -/
theorem runOn_dry_of_patch {target source text : String} {operations : List Operation}
    {manifest patched : Manifest} (hdry : options.dryRun = true)
    (hjob : command.job env options.settings = .ok (target, operations))
    (hpath : isManifestPath target) (hsource : storage.read state target = .ok source)
    (hread : Manifest.ofYaml source = .ok manifest)
    (hpatch : manifest.patch options.policy operations = (patched, .ok report))
    (htext : patched.toYaml = .ok text) :
    (command.plan env options).runOn storage state =
      (.patched options target report (some text), state) := by
  have hpatched : patchedText options.policy target operations manifest = .ok (report, text) :=
    patchedText_eq_ok.2 ⟨patched, hpatch, htext⟩
  have hprepare : command.prepare env options.settings options.policy (storage.read state) =
      .ok (some ⟨target, report, text⟩) := by
    rw [Command.prepare_of_manifest hjob hpath hsource hread, hpatched]
    rfl
  exact Command.runOn_of_dry hdry hprepare

/-- The layout of a source that ends its last line ends it too. -/
theorem endsLines_of_preserved? {manifest : Manifest} {source : Source} {text : String}
    (hsource : manifest.source = some source) (hends : EndsLines source.text.toList)
    (h : manifest.preserved? = some text) : EndsLines text.toList := by
  obtain ⟨found, hfound, hfilter⟩ := Option.bind_eq_some_iff.1 h
  obtain rfl := Option.some.inj (hsource.symm.trans hfound)
  exact endsLines_of_renderLayout? hends (Option.filter_eq_some_iff.1 hfilter).1

/-- **When a summary keeps the document and what is said of the run apart.** It does if and only if
the document ends its last line. Then each line about the run is one line, unless the name of the
target holds a line feed. A document in the layout of a source that ends its last line ends it too,
and one that is written anew does if and only if it does not end in a literal that has a separator
other than a line feed at its end. -/
theorem summary_apart_iff (hdry : options.dryRun = true) (hformat : options.format = .summary)
    (hrun : (command.plan env options).runOn storage state =
      (⟨.ok (.patched report), output⟩, final)) :
    ∃ target operations source manifest patched text,
      command.job env options.settings = .ok (target, operations) ∧
      storage.read state target = .ok source ∧ Manifest.ofYaml source = .ok manifest ∧
      manifest.patch options.policy operations = (patched, .ok report) ∧
      patched.toYaml = .ok text ∧
      (SummaryApart target report text output ↔ EndsLines text.toList) ∧
      ('\n' ∉ target.toList → ∀ line ∈ summaryLines target report true,
        lines (line ++ "\n").toList = [(line ++ "\n").toList]) ∧
      (patched.preserved? = some text → EndsLines source.toList → EndsLines text.toList) ∧
      (patched.preserved? = none → (EndsLines text.toList ↔ patched.root.EndsAtFeed)) := by
  obtain ⟨target, operations, source, manifest, patched, text, hjob, hsource, hread, hpatch, htext,
    rfl⟩ := exists_of_dry_run hdry hrun
  refine ⟨target, operations, source, manifest, patched, text, hjob, hsource, hread, hpatch, htext,
    ?_, fun htarget line hline => ?_, fun hkept hends => ?_, fun hanew => ?_⟩
  · rw [hformat]
    exact summaryApart_iff
  · have hpaths := feed_notMem_missedPaths (isBundlePatch_of_job hjob) hpatch
    have hfeed := feed_notMem_summaryLines htarget hpaths true line hline
    rw [String.toList_append]
    exact lines_of_notMem hfeed
  · obtain ⟨tree, -, rfl⟩ := Manifest.ofYaml_eq_ok.1 hread
    exact endsLines_of_preserved? (Manifest.patch_eq_ok.1 hpatch).2 hends hkept
  · rw [Manifest.toYaml, hanew] at htext
    exact endsLines_toYaml_iff htext

/-- The options of a dry run with a summary. -/
def sampleDryOptions : Options := { sampleOptions with dryRun := true }

/-- The sample is printed in its layout, and the lines about the run are lines of their own. -/
theorem summary_apart_iff_sample :
    ∃ report output final target text,
      (Command.annotations.plan sampleEnvironment sampleDryOptions).run sampleFiles =
        (⟨.ok (.patched report), output⟩, final) ∧
      EndsLines text.toList ∧ SummaryApart target report text output ∧
      ∀ line ∈ summaryLines target report true,
        lines (line ++ "\n").toList = [(line ++ "\n").toList] := by
  obtain ⟨manifest, patched, report, text, hmanifest, hpatch, hkept, -⟩ := exists_ready_sample
  have hjob : Command.annotations.job sampleEnvironment sampleDryOptions.settings =
      .ok (sampleTarget, annotationsPatch sampleSettings) := rfl
  have hpath : isManifestPath sampleTarget := rfl
  have hsource : Files.storage.read sampleFiles sampleTarget = .ok sampleText := rfl
  have htext : patched.toYaml = .ok text := by rw [Manifest.toYaml, hkept]
  have hrun : (Command.annotations.plan sampleEnvironment sampleDryOptions).runOn Files.storage
      sampleFiles = (.patched sampleDryOptions sampleTarget report (some text), sampleFiles) :=
    runOn_dry_of_patch rfl hjob hpath hsource hmanifest hpatch htext
  obtain ⟨target, operations, source, manifest', patched', text', hjob', hsource', hread', hpatch',
    htext', hapart, hlines, hends, -⟩ := summary_apart_iff rfl rfl hrun
  obtain ⟨rfl, rfl⟩ := Prod.mk.inj (Except.ok.inj (hjob.symm.trans hjob'))
  obtain rfl := Except.ok.inj (hsource.symm.trans hsource')
  obtain rfl := Except.ok.inj (hmanifest.symm.trans hread')
  obtain ⟨rfl, -⟩ := Prod.mk.inj (hpatch.symm.trans hpatch')
  obtain rfl := Except.ok.inj (htext.symm.trans htext')
  have hended : EndsLines text.toList := hends hkept (endsLines_of_getLast? rfl)
  exact ⟨report, _, _, sampleTarget, text, hrun, hended, hapart.2 hended, hlines (by decide)⟩

/-- Annotations whose only line is not ended. -/
def openText : String := "a: 1"

/-- A folder with them. -/
def openFiles : Files := ⟨[(["work", "a.yaml"], .file (.text openText))]⟩

/-- The environment of a run on them. -/
def openEnvironment : Environment := .ofList [("TARGET_METADATA_ANNOTATIONS_FILE", "a.yaml")]

/-- The options of a dry run with the settings of an empty file. -/
def openOptions : Options := ⟨Settings.standard, none, true, .summary⟩

/-- No mark is found, so the layout is kept, and with it the line that is not ended. -/
theorem exists_patched_open :
    ∃ manifest patched report text, Manifest.ofYaml openText = .ok manifest ∧
      manifest.patch .ignore (annotationsPatch Settings.standard) = (patched, .ok report) ∧
      patched.toYaml = .ok text ∧ text.toList = ['a', ':', ' ', '1'] := by
  have hends : ((Manifest.ofYaml openText).map fun manifest =>
      ((manifest.patch .ignore (annotationsPatch Settings.standard)).1.preserved?.map String.toList,
        (manifest.patch .ignore (annotationsPatch Settings.standard)).2.isOk)) =
      .ok (some ['a', ':', ' ', '1'], true) := by
    decide +kernel
  obtain ⟨manifest, hmanifest, hboth⟩ := map_eq_ok.1 hends
  obtain ⟨hkept, hok⟩ := Prod.mk.inj hboth
  obtain ⟨text, hkept, htext⟩ := Option.map_eq_some_iff.1 hkept
  rcases hpatch : manifest.patch .ignore (annotationsPatch Settings.standard)
    with ⟨patched, error | report⟩
  · rw [hpatch] at hok
    cases hok
  · rw [hpatch] at hkept
    exact ⟨manifest, patched, report, text, hmanifest, hpatch, by rw [Manifest.toYaml, hkept],
      htext⟩

/-- **The line about a run may be glued to the document.** A document that is printed as it stands
in its source has no line feed at its end if its source has none, and then the last line of the
document goes on with what is said of the run. -/
theorem summary_glued :
    ¬ ∀ (command : Command) (env : Environment) (options : Options) (files final : Files)
        (report : Report) (output : String),
      options.dryRun = true → options.format = .summary →
      (command.plan env options).run files = (⟨.ok (.patched report), output⟩, final) →
      ∃ target operations source manifest patched text,
        command.job env options.settings = .ok (target, operations) ∧
        files.read target = .ok source ∧ Manifest.ofYaml source = .ok manifest ∧
        manifest.patch options.policy operations = (patched, .ok report) ∧
        patched.toYaml = .ok text ∧ SummaryApart target report text output := by
  intro h
  obtain ⟨manifest, patched, report, text, hmanifest, hpatch, htext, hchars⟩ := exists_patched_open
  have hjob : Command.annotations.job openEnvironment openOptions.settings =
      .ok ("a.yaml", annotationsPatch Settings.standard) := rfl
  have hsource : openFiles.read "a.yaml" = .ok openText := rfl
  have hrun : (Command.annotations.plan openEnvironment openOptions).run openFiles =
      (.patched openOptions "a.yaml" report (some text), openFiles) :=
    runOn_dry_of_patch rfl hjob rfl hsource hmanifest hpatch htext
  obtain ⟨target, operations, source, manifest', patched', text', hjob', hsource', hread', hpatch',
    htext', hapart⟩ := h _ _ _ _ _ _ _ rfl rfl hrun
  obtain ⟨rfl, rfl⟩ := Prod.mk.inj (Except.ok.inj (hjob.symm.trans hjob'))
  obtain rfl := Except.ok.inj (hsource.symm.trans hsource')
  obtain rfl := Except.ok.inj (hmanifest.symm.trans hread')
  obtain ⟨rfl, -⟩ := Prod.mk.inj (hpatch.symm.trans hpatch')
  obtain rfl := Except.ok.inj (htext.symm.trans htext')
  have hended := summaryApart_iff.1 hapart
  rw [hchars] at hended
  have hfeed : '1' = '\n' := hended '1' rfl
  exact absurd hfeed (by decide)

end OperatorBundle
