import OperatorBundle.Yaml.Charset

/-!
Line folding: how the blanks and breaks inside a flow scalar are read. Blanks within a line stay, a
single line feed becomes a space, and of several breaks all but the first stay.
-/

namespace OperatorBundle.Yaml

/-- The blanks and breaks since the last character of a scalar, latest first. After the first break
blanks no longer count. An escaped break breaks the line without leaving anything. -/
structure Gap where
  pads : List Char
  broken : Bool
  first : Option Char
  more : List Char

namespace Gap

/-- No gap. -/
def none : Gap := ⟨[], false, Option.none, []⟩

/-- The gap that an escaped break opens. -/
def escapedBreak : Gap := ⟨[], true, Option.none, []⟩

/-- The gap with one more blank. -/
def addPad (gap : Gap) (c : Char) : Gap :=
  if gap.broken then gap else { gap with pads := c :: gap.pads }

/-- The gap with one more break. -/
def addBreak (gap : Gap) (c : Char) : Gap :=
  if gap.broken then { gap with more := c :: gap.more } else ⟨[], true, some c, []⟩

/-- Whether anything stands in the gap. -/
def isOpen (gap : Gap) : Bool := gap.broken || !gap.pads.isEmpty

/-- What the gap stands for, latest character first. -/
def folded (gap : Gap) : List Char :=
  if gap.broken then
    match gap.first with
    | some '\n' => if gap.more.isEmpty then [' '] else gap.more
    | some c => gap.more ++ [c]
    | Option.none => gap.more
  else gap.pads

end Gap

end OperatorBundle.Yaml
