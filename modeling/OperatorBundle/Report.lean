import OperatorBundle.Json.Basic

/-!
The report of a patch run: one record for each operation that ended well, in order.
-/

namespace OperatorBundle

/-- How an operation ended: it was applied, its guard kept it from running, or its target was
missing and the policy let that pass. -/
inductive Outcome
  | applied
  | skipped
  | missed
  deriving DecidableEq, Repr

/-- The name of an outcome. -/
def Outcome.name : Outcome → String
  | .applied => "applied"
  | .skipped => "skipped"
  | .missed => "missed"

/-- The outcome with a name. -/
def Outcome.ofName? (name : String) : Option Outcome :=
  [Outcome.applied, .skipped, .missed].find? fun o => o.name = name

/-- The outcome of one operation at the place that its locator names. -/
structure Record where
  path : String
  op : String
  outcome : Outcome
  deriving DecidableEq, Repr

/-- What happened in a run. -/
structure Report where
  records : List Record
  deriving DecidableEq, Repr

namespace Report

/-- The report of a run without operations. -/
def empty : Report := ⟨[]⟩

/-- The report with one more record. -/
def push (report : Report) (record : Record) : Report := ⟨report.records ++ [record]⟩

/-- The number of records with an outcome. -/
def count (report : Report) (outcome : Outcome) : Nat :=
  report.records.countP fun r => r.outcome = outcome

/-- The paths that were missing. -/
def missedPaths (report : Report) : List String :=
  (report.records.filter fun r => r.outcome = .missed).map (·.path)

/-- Every record has one of the three outcomes. -/
theorem count_add_count_add_count (report : Report) :
    report.count .applied + report.count .skipped + report.count .missed =
      report.records.length := by
  obtain ⟨records⟩ := report
  simp only [count]
  induction records with
  | nil => rfl
  | cons r rest ih =>
    have h : r.outcome = .applied ∨ r.outcome = .skipped ∨ r.outcome = .missed := by
      cases r.outcome <;> simp
    simp only [List.countP_cons, List.length_cons]
    rcases h with h | h | h <;> simp [h] <;> omega

/-! ### JSON -/

/-- A record as a JSON object. -/
def recordJson (record : Record) : Json :=
  .object [("path", .string record.path), ("op", .string record.op),
    ("outcome", .string record.outcome.name)]

/-- The members of a report as a JSON object. -/
def members (report : Report) : List (String × Json) :=
  [("records", .array (report.records.map recordJson))]

/-- A report as a JSON object. -/
def toJson (report : Report) : Json := .object report.members

/-- The text of a JSON string. -/
def jsonText? : Json → Option String
  | .string text => some text
  | _ => none

/-- An outcome by its name, or as an object whose only member is the name with nothing in it. -/
def outcome? : Json → Option Outcome
  | .string name => Outcome.ofName? name
  | .object [(name, .null)] => Outcome.ofName? name
  | _ => none

/-- A record from the values of its three fields. -/
def recordOf? (path op outcome : Json) : Option Record := do
  some ⟨← jsonText? path, ← jsonText? op, ← outcome? outcome⟩

/-- A record from an object, whose other members do not count, or from the list of its fields. -/
def record? : Json → Option Record
  | .object members => do
    recordOf? (← Json.member? "path" members) (← Json.member? "op" members)
      (← Json.member? "outcome" members)
  | .array [path, op, outcome] => recordOf? path op outcome
  | _ => none

/-- The records of a list. -/
def records? : Json → Option (List Record)
  | .array items => items.mapM record?
  | _ => none

/-- A report from an object, whose other members do not count, or from the list of its only field.
A field that is left out has no records. -/
def ofJson? : Json → Option Report
  | .object members =>
    match Json.member? "records" members with
    | some records => (records? records).map Report.mk
    | none => some empty
  | .array [] => some empty
  | .array [records] => (records? records).map Report.mk
  | _ => none

end Report

end OperatorBundle
