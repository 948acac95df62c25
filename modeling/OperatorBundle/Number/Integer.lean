import OperatorBundle.Number.Power
import OperatorBundle.Text.Blank
import OperatorBundle.Text.Digits

/-!
Integers of a bounded range, read from a text that holds a numeral and blanks around it.
-/

namespace OperatorBundle.Number

open OperatorBundle.Text

/-- Why a text is not an integer of the range. -/
inductive NumeralFault
  | empty
  | invalidDigit
  | tooLarge
  | tooSmall
  deriving DecidableEq, Repr

/-- The fault in words. -/
def NumeralFault.message : NumeralFault → String
  | .empty => "cannot parse integer from empty string"
  | .invalidDigit => "invalid digit found in string"
  | .tooLarge => "number too large to fit in target type"
  | .tooSmall => "number too small to fit in target type"

/-- Digits after the number read so far, none of which may lead above `limit`. The first character
that fails decides the fault. -/
def boundedAfter (limit : Nat) (beyond : NumeralFault) : Nat → List Char → Except NumeralFault Nat
  | n, [] => .ok n
  | n, c :: rest =>
    match digitIn? 10 c with
    | none => .error .invalidDigit
    | some d => if limit < n * 10 + d then .error beyond
                else boundedAfter limit beyond (n * 10 + d) rest

/-- One or more digits that write a number up to `limit`. -/
def bounded (limit : Nat) (beyond : NumeralFault) (cs : List Char) : Except NumeralFault Nat :=
  if cs.isEmpty then .error .invalidDigit else boundedAfter limit beyond 0 cs

/-- A number below 2³²: digits after an optional plus sign. -/
def readUnsigned32 (text : String) : Except NumeralFault Nat :=
  match trim text.toList with
  | [] => .error .empty
  | '+' :: digits => bounded (twoTo 32 - 1) .tooLarge digits
  | digits => bounded (twoTo 32 - 1) .tooLarge digits

/-- A number from -2⁶³ to 2⁶³ - 1: digits after an optional sign. -/
def readSigned64 (text : String) : Except NumeralFault Int :=
  match trim text.toList with
  | [] => .error .empty
  | '-' :: digits => (bounded (twoTo 63) .tooSmall digits).map fun n => -(n : Int)
  | '+' :: digits => (bounded (twoTo 63 - 1) .tooLarge digits).map fun n => (n : Int)
  | digits => (bounded (twoTo 63 - 1) .tooLarge digits).map fun n => (n : Int)

end OperatorBundle.Number
