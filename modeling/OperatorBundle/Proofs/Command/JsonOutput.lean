import OperatorBundle.Proofs.Command.DryRun

/-!
What is printed as JSON. A report is read back from both of its written forms, and a member that is
not its own does not keep it from that; so the output of a run, which has the document of a dry run
as one member more, is read as the report of the run.

* `Report.ofJson?_outputJson`: a report is read from its object, with a document beside it or not.
* `json_output_read_back`: what every run that reports as JSON prints, and the compact form of every
  report.
-/

namespace OperatorBundle

open OperatorBundle.Bundle

/-! ### Reports -/

@[simp] theorem Outcome.ofName?_name (outcome : Outcome) : ofName? outcome.name = some outcome := by
  cases outcome <;> rfl

namespace Report

theorem record?_recordJson (record : Record) : record? (recordJson record) = some record := by
  have hmembers : record? (recordJson record) =
      recordOf? (.string record.path) (.string record.op) (.string record.outcome.name) := rfl
  rw [hmembers, recordOf?, outcome?, Outcome.ofName?_name]
  rfl

theorem records?_recordJson (records : List Record) :
    records? (.array (records.map recordJson)) = some records := by
  rw [records?]
  induction records with
  | nil => rfl
  | cons record more ih =>
    rw [List.map_cons, List.mapM_cons, record?_recordJson, ih]
    rfl

/-- **A report is read from its object**, with a document beside it or not. -/
theorem ofJson?_outputJson (report : Report) (document : Option String) :
    ofJson? (outputJson report document) = some report := by
  -- the member of a document has another name, so it does not stand before the records
  have hrecords : Json.member? "records" (report.members ++
      (document.map fun text => ("manifest", Json.string text)).toList) =
      some (.array (report.records.map recordJson)) := by
    cases document <;> rfl
  rw [outputJson, ofJson?, hrecords]
  simp only [records?_recordJson, Option.map_some]

theorem outputJson_none (report : Report) : outputJson report none = report.toJson := by
  rw [outputJson, Option.map_none, Option.toList_none, List.append_nil]
  rfl

end Report

/-! ### Outputs -/

/-- What stands between brackets, spread over lines or not. -/
theorem Json.exists_spread_eq (opening closing : Char) (level : Nat) (parts : List (List Char)) :
    ∃ inside, spread opening closing level parts = opening :: (inside ++ [closing]) := by
  unfold spread
  split
  · exact ⟨[], rfl⟩
  · exact ⟨_, rfl⟩

/-- A JSON output is one object, from its opening brace to its closing one, and a line feed. -/
theorem exists_outputText_json (target : String) (report : Report) (document : Option String) :
    ∃ inside, outputText .json target report document =
      String.ofList ('\x7b' :: (inside ++ ['\x7d'])) ++ "\n" ∧
    Json.ofText? (String.ofList ('\x7b' :: (inside ++ ['\x7d']))) =
      some (outputJson report document) := by
  have hproper := proper_outputJson report document
  have hread := Json.ofText?_of_hasTokens hproper (Json.hasTokens_prettyAt hproper 0)
    (by simp [Json.EndsWord]) Json.splitsOff_nil
  rw [List.append_nil] at hread
  obtain ⟨inside, hinside⟩ : ∃ inside,
      (outputJson report document).pretty = '\x7b' :: (inside ++ ['\x7d']) := by
    rw [outputJson, Json.pretty, Json.prettyAt]
    exact Json.exists_spread_eq _ _ _ _
  refine ⟨inside, ?_, ?_⟩
  · rw [outputText, hinside]
  · rw [← hinside]
    exact hread

/-- **What is printed as JSON is one faithful document.** Every run that patches its target,
wherever that is kept, and reports as JSON prints one object and a line feed. It is read as the
report of the run, and has a member for the document on a dry run only: its value is the text of the
patched document, whatever characters are in it. And every report is read from its form without
blanks. -/
theorem json_output_read_back :
    (∀ {σ : Type} (storage : Storage σ) (command : Command) env options state finish final report,
      (command.plan env options).runOn storage state = (finish, final) → options.format = .json →
      finish.status = .ok (.patched report) →
      ∃ target operations source manifest patched document inside members,
        command.job env options.settings = .ok (target, operations) ∧
        storage.read state target = .ok source ∧ Manifest.ofYaml source = .ok manifest ∧
        manifest.patch options.policy operations = (patched, .ok report) ∧
        patched.toYaml = .ok document ∧
        finish.output = String.ofList ('\x7b' :: (inside ++ ['\x7d'])) ++ "\n" ∧
        Json.ofText? (String.ofList ('\x7b' :: (inside ++ ['\x7d']))) = some (.object members) ∧
        Report.ofJson? (.object members) = some report ∧
        members.map (·.1) = (if options.dryRun then ["records", "manifest"] else ["records"]) ∧
        Json.member? "manifest" members =
          if options.dryRun then some (.string document) else none) ∧
    ∀ report : Report,
      (Json.ofText? (String.ofList report.toJson.compact)).bind Report.ofJson? = some report := by
  constructor
  · intro σ storage command env options state finish final report hrun hformat hstatus
    obtain ⟨ready, hready, rfl, rfl, -⟩ := Command.exists_ready_of_run hrun hstatus
    obtain ⟨operations, source, manifest, hjob, -, hsource, hread, hpatched⟩ :=
      Command.prepare_eq_ready.1 hready
    obtain ⟨patched, hpatch, htext⟩ := patchedText_eq_ok.1 hpatched
    obtain ⟨inside, houtput, hobject⟩ := exists_outputText_json ready.target ready.report
      (if options.dryRun then some ready.text else none)
    refine ⟨ready.target, operations, source, manifest, patched, ready.text, inside, _, hjob,
      hsource, hread, hpatch, htext, ?_, hobject, Report.ofJson?_outputJson _ _, ?_, ?_⟩
    · rw [Finish.patched, hformat, houtput]
    · cases options.dryRun <;> rfl
    · cases options.dryRun <;> rfl
  · intro report
    rw [← Report.outputJson_none, Json.ofText?_compact (proper_outputJson report none)]
    exact Report.ofJson?_outputJson report none

/-- The options of a dry run or a real one that reports as JSON. -/
def sampleJsonOptions (dryRun : Bool) : Options :=
  { sampleOptions with dryRun := dryRun, format := .json }

theorem json_output_read_back_sample :
    (∃ report output final document members,
      (Command.annotations.plan sampleEnvironment (sampleJsonOptions true)).run sampleFiles =
        (⟨.ok (.patched report), output⟩, final) ∧
      (∃ text, output = text ++ "\n" ∧ Json.ofText? text = some (.object members)) ∧
      Report.ofJson? (.object members) = some report ∧
      Json.member? "manifest" members = some (.string document)) ∧
    ∃ report output final members,
      (Command.annotations.plan sampleEnvironment (sampleJsonOptions false)).run sampleFiles =
        (⟨.ok (.patched report), output⟩, final) ∧
      (∃ text, output = text ++ "\n" ∧ Json.ofText? text = some (.object members)) ∧
      Report.ofJson? (.object members) = some report ∧
      Json.member? "manifest" members = none := by
  have hruns (dryRun : Bool) : ∃ report output final,
      (Command.annotations.plan sampleEnvironment (sampleJsonOptions dryRun)).runOn Files.storage
        sampleFiles = (⟨.ok (.patched report), output⟩, final) := by
    obtain ⟨manifest, patched, report, text, -, -, -, hready⟩ := exists_ready_sample
    have hprepare : Command.annotations.prepare sampleEnvironment
        (sampleJsonOptions dryRun).settings (sampleJsonOptions dryRun).policy
        (Files.storage.read sampleFiles) = .ok (some ⟨sampleTarget, report, text⟩) := hready
    obtain ⟨final, hrun⟩ := Command.exists_run_of_ready sampleFiles.writable hprepare
    exact ⟨report, _, final, hrun⟩
  constructor
  · obtain ⟨report, output, final, hrun⟩ := hruns true
    obtain ⟨target, operations, source, manifest, patched, document, inside, members, -, -, -, -,
      -, houtput, hobject, hreport, -, hmember⟩ := json_output_read_back.1 Files.storage
      .annotations sampleEnvironment (sampleJsonOptions true) sampleFiles
      ⟨.ok (.patched report), output⟩ final report hrun rfl rfl
    exact ⟨report, output, final, document, members, hrun, ⟨_, houtput, hobject⟩, hreport,
      hmember⟩
  · obtain ⟨report, output, final, hrun⟩ := hruns false
    obtain ⟨target, operations, source, manifest, patched, document, inside, members, -, -, -, -,
      -, houtput, hobject, hreport, -, hmember⟩ := json_output_read_back.1 Files.storage
      .annotations sampleEnvironment (sampleJsonOptions false) sampleFiles
      ⟨.ok (.patched report), output⟩ final report hrun rfl rfl
    exact ⟨report, output, final, members, hrun, ⟨_, houtput, hobject⟩, hreport, hmember⟩

end OperatorBundle
