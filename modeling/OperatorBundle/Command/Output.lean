import OperatorBundle.Command.Basic

/-!
What a run prints: a summary, or one JSON document. A dry run prints the patched document too.
-/

namespace OperatorBundle

open OperatorBundle.Text

/-- The number of records with an outcome, as a numeral. -/
def Report.countText (report : Report) (outcome : Outcome) : String :=
  String.ofList (decimal (report.count outcome))

/-- The line that sums up a run. -/
def summaryLine (target : String) (report : Report) (dryRun : Bool) : String :=
  "✓ " ++ (if dryRun then "Dry run of" else "Patched") ++ " " ++ target ++ ": " ++
    report.countText .applied ++ " applied, " ++ report.countText .skipped ++ " skipped, " ++
    report.countText .missed ++ " missed"

/-- The lines about a run: the one that sums it up, and one for each missing target. -/
def summaryLines (target : String) (report : Report) (dryRun : Bool) : List String :=
  summaryLine target report dryRun :: report.missedPaths.map fun path => "  no match: " ++ path

/-- What a run prints in its summary, after the document of a dry run. -/
def summaryText (target : String) (report : Report) (document : Option String) : String :=
  document.getD "" ++
    String.join ((summaryLines target report document.isSome).map fun line => line ++ "\n")

/-- What a run prints as JSON: its report, and the document of a dry run as a member of it. -/
def outputJson (report : Report) (document : Option String) : Json :=
  .object (report.members ++ (document.map fun text => ("manifest", Json.string text)).toList)

/-- What a run prints. -/
def outputText (format : Format) (target : String) (report : Report) (document : Option String) :
    String :=
  match format with
  | .summary => summaryText target report document
  | .json => String.ofList (outputJson report document).pretty ++ "\n"

end OperatorBundle
