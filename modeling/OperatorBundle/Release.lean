import OperatorBundle.Text.Digits

/-!
Release versions: three numbers, of which the last counts the patches of a minor release.
-/

namespace OperatorBundle

open OperatorBundle.Text

/-- A release version. -/
structure Release where
  major : Nat
  minor : Nat
  patch : Nat
  deriving DecidableEq, Repr

namespace Release

/-- A number as it stands in a version. -/
def number (n : Nat) : String := String.ofList (decimal n)

/-- A version with dots between its numbers. -/
def text (release : Release) : String :=
  number release.major ++ "." ++ number release.minor ++ "." ++ number release.patch

/-- The release that this one replaces; the first of a minor release replaces none. -/
def previous? (release : Release) : Option Release :=
  match release.patch with
  | 0 => none
  | patch + 1 => some { release with patch }

/-- How many minor releases back an upgrade may start. -/
def skippedMinors : Nat := 3

/-- The lower end of the versions from which an upgrade may go straight to this one. -/
def skipRangeFloor (release : Release) : String :=
  number release.major ++ "." ++ number (release.minor - skippedMinors) ++ ".x"

end Release

end OperatorBundle
