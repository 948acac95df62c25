import OperatorBundle.Yaml.Scalar.Folding
import OperatorBundle.Yaml.Fault

/-!
Plain scalars: text without quotes, ended by a colon before a gap, by a comment, by a line that is
not indented enough, or inside brackets by a bracket or comma.
-/

namespace OperatorBundle.Yaml

/-- A plain scalar that was read: its text, the number of characters it took with the gap after it,
and whether that gap breaks the line. -/
structure PlainScalar where
  text : List Char
  used : Nat
  broken : Bool

/-- The scalar that ends before a gap, of a text that is held latest character first. -/
def PlainScalar.endingBefore (gap : Gap) (text : List Char) (used : Nat) : PlainScalar :=
  ⟨text.reverse, used, gap.broken⟩

/-- Brackets, braces and commas, which end a plain scalar inside a flow collection. -/
def flowMarks : List Char := [',', '[', ']', '\x7b', '\x7d']

/-- The rest of a plain scalar. The text so far is held latest character first; lines after the
first must start at column `indent` or later unless the scalar stands in a flow collection. -/
def plainRest (inFlow : Bool) (indent : Int) :
    List Char → Nat → Gap → List Char → Nat → Except Fault PlainScalar
  | [], _, gap, text, used => .ok (.endingBefore gap text used)
  | c :: rest, column, gap, text, used =>
    if isPad c then
      if gap.broken && column < indent && c = '\t' then .error .tab
      else plainRest inFlow indent rest (column + 1) (gap.addPad c) text (used + 1)
    else if isBreak c then plainRest inFlow indent rest 0 (gap.addBreak c) text (used + 1)
    else
      if gap.isOpen && ((!inFlow && column < indent) || c = '#' ||
          (column = 0 && isDocumentMark (c :: rest))) then .ok (.endingBefore gap text used)
      else if inFlow && c = ':' && startsWithAny ('?' :: flowMarks) rest then .error .character
      else if (c = ':' && atGap rest) || (inFlow && flowMarks.contains c) then
        .ok (.endingBefore gap text used)
      else plainRest inFlow indent rest (column + 1) Gap.none (c :: (gap.folded ++ text)) (used + 1)

/-- The plain scalar at the start of a text that begins at the given column. -/
def plainScalar (inFlow : Bool) (indent : Int) (column : Nat) (cs : List Char) :
    Except Fault PlainScalar :=
  plainRest inFlow indent cs column Gap.none [] 0

end OperatorBundle.Yaml
