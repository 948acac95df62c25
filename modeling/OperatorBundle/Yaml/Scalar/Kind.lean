import OperatorBundle.Tree.Basic
import OperatorBundle.Yaml.Fault

/-!
What the text of a plain scalar stands for: nothing, a truth value, an integer, a number with a
fraction, or itself.
-/

namespace OperatorBundle.Yaml

open OperatorBundle.Text OperatorBundle.Number

/-- The spellings of nothing, beside the empty text. -/
def isNull (cs : List Char) : Bool :=
  [['~'], ['n', 'u', 'l', 'l'], ['N', 'u', 'l', 'l'], ['N', 'U', 'L', 'L']].contains cs

/-- The truth value that a text spells. -/
def bool? (cs : List Char) : Option Bool :=
  if [['t', 'r', 'u', 'e'], ['T', 'r', 'u', 'e'], ['T', 'R', 'U', 'E']].contains cs then some true
  else if [['f', 'a', 'l', 's', 'e'], ['F', 'a', 'l', 's', 'e'],
    ['F', 'A', 'L', 'S', 'E']].contains cs then some false
  else none

/-- Whether a text is a sign, perhaps, and several digits of which the first is zero. Such a text is
no number. -/
def isZeroPadded (cs : List Char) : Bool :=
  let digits := match cs with
    | c :: rest => if c = '-' || c = '+' then rest else cs
    | [] => []
  match digits with
  | '0' :: c :: rest => isDigit c && rest.all isDigit
  | _ => false

/-- The number that digits write after a prefix for base 16, 8 or 2. -/
def based? : List Char → Option Nat
  | '0' :: 'x' :: digits => nat? 16 digits
  | '0' :: 'o' :: digits => nat? 8 digits
  | '0' :: 'b' :: digits => nat? 2 digits
  | _ => none

/-- The integer that a text writes, from -2¹²⁷ to 2¹²⁸ - 1. -/
def integer? (cs : List Char) : Option Int :=
  let natural (digits : List Char) : Option Nat :=
    based? digits <|> if isZeroPadded cs then none else nat? 10 digits
  match cs with
  | '-' :: digits => ((natural digits).filter (· ≤ twoTo 127)).map fun n => -(n : Int)
  | '+' :: digits => ((natural digits).filter (· < twoTo 128)).map fun n => (n : Int)
  | digits => ((natural digits).filter (· < twoTo 128)).map fun n => (n : Int)

/-- An integer as a tree holds it: one that neither a signed nor an unsigned word of 64 bits can
hold is refused. -/
def wordInteger (n : Int) : Except Fault Tree :=
  if -(twoTo 63 : Int) ≤ n ∧ n < twoTo 64 then .ok (.int n) else .error .numberRange

/-- The spellings of infinity without its sign. -/
def isInfinityWord (word : List Char) : Bool :=
  [['.', 'i', 'n', 'f'], ['.', 'I', 'n', 'f'], ['.', 'I', 'N', 'F']].contains word

/-- Infinity with its sign. -/
def infinity? : List Char → Option Double
  | '-' :: word => if isInfinityWord word then some (.infinity true) else none
  | '+' :: word => if isInfinityWord word then some (.infinity false) else none
  | word => if isInfinityWord word then some (.infinity false) else none

/-- The number that a text writes: infinity, not-a-number, or a numeral of a finite number. -/
def float? (cs : List Char) : Option Double :=
  match infinity? cs with
  | some x => some x
  | none =>
    if [['.', 'n', 'a', 'n'], ['.', 'N', 'a', 'N'], ['.', 'N', 'A', 'N']].contains cs then
      some .nan
    else (Double.ofText? cs).filter (·.isFinite)

/-- The tree of a plain scalar. -/
def plainTree (cs : List Char) : Except Fault Tree :=
  if cs.isEmpty || isNull cs then .ok .null
  else match bool? cs, integer? cs with
    | some b, _ => .ok (.bool b)
    | none, some n => wordInteger n
    | none, none =>
      match if isZeroPadded cs then none else float? cs with
      | some x => .ok (.float x)
      | none => .ok (.text (String.ofList cs))

/-- Whether a text, written as a plain scalar, would be read as itself. -/
def readsAsText (cs : List Char) : Bool :=
  match plainTree cs with
  | .ok (.text _) => true
  | _ => false

end OperatorBundle.Yaml
