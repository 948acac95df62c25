/-!
What happens to an operation whose target is missing.
-/

namespace OperatorBundle

/-- A missing target is passed over, or ends the run. -/
inductive Policy
  | ignore
  | fail
  deriving DecidableEq, Repr, Inhabited

namespace Policy

/-- The name of a policy. -/
def name : Policy → String
  | .ignore => "ignore"
  | .fail => "fail"

/-- The policy with exactly this name. -/
def ofName? (name : String) : Option Policy :=
  [Policy.ignore, .fail].find? fun p => p.name = name

/-- The policy that a word on the command line names, in any case. The names are ASCII words, and no
other letter has one of theirs as its lower case. -/
def ofWord (word : String) : Except String Policy :=
  match ofName? word.toLower with
  | some policy => .ok policy
  | none => .error ("Invalid no-match policy: " ++ word ++ ". Use: ignore, fail")

end Policy

end OperatorBundle
