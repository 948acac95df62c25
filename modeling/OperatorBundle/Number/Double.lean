import OperatorBundle.Number.Power
import OperatorBundle.Text.Digits

/-!
Double-precision numbers, held by their 64 bits: a sign, eleven bits of exponent and 52 bits of
fraction. Numbers are read from decimal numerals by rounding the exact quotient to the nearest
double, and an exact half to the even one.
-/

namespace OperatorBundle.Number

open OperatorBundle.Text

/-- A double-precision number. -/
structure Double where
  bits : UInt64
  deriving DecidableEq, Repr

namespace Double

/-- The number whose sign and magnitude bits are given. -/
def ofMagnitude (negative : Bool) (magnitude : Nat) : Double :=
  ⟨(if negative then twoTo 63 + magnitude else magnitude).toUInt64⟩

/-- The bits below the sign. -/
def magnitude (x : Double) : Nat := x.bits.toNat % twoTo 63

/-- The sign bit. -/
def isNegative (x : Double) : Bool := twoTo 63 ≤ x.bits.toNat

/-- The magnitude bits of infinity; greater ones are no numbers. -/
def infiniteMagnitude : Nat := 0x7FF0000000000000

/-- Infinity with a sign. -/
def infinity (negative : Bool) : Double := ofMagnitude negative infiniteMagnitude

/-- The result of an operation without a value. -/
def nan : Double := ofMagnitude false 0x7FF8000000000000

/-- Whether a double is the result of an operation without a value. -/
def isNaN (x : Double) : Bool := infiniteMagnitude < x.magnitude

/-- Whether a double is one of the two infinities. -/
def isInfinite (x : Double) : Bool := x.magnitude = infiniteMagnitude

/-- Whether a double is a number. -/
def isFinite (x : Double) : Bool := x.magnitude < infiniteMagnitude

/-- Equality of values, except that all not-a-numbers are one value: the two zeros are equal. -/
def same (x y : Double) : Bool :=
  if x.isNaN || y.isNaN then x.isNaN && y.isNaN
  else x.bits = y.bits || (x.magnitude = 0 && y.magnitude = 0)

@[simp] theorem same_refl (x : Double) : x.same x := by
  by_cases h : x.isNaN <;> simp [same, h]

theorem same_comm (x y : Double) : x.same y = y.same x := by
  simp only [same, Bool.or_comm x.isNaN, Bool.and_comm x.isNaN, eq_comm (a := x.bits),
    Bool.and_comm (decide (x.magnitude = 0))]

/-- A quotient rounded to the nearest natural number, an exact half to the even one. -/
def roundQuotient (num den : Nat) : Nat :=
  let q := num / den
  let twice := 2 * (num % den)
  if den < twice || (twice = den && q % 2 = 1) then q + 1 else q

/-- The quotient of two numbers in units of a power of two, as numerator and denominator. -/
def inUnits (num den : Nat) (unit : Int) : Nat × Nat :=
  if 0 ≤ unit then (num, den * twoTo unit.toNat) else (num * twoTo (-unit).toNat, den)

/-- The magnitude bits of the double nearest to a positive quotient. The unit is the power of two
of the last bit kept: at least the smallest there is, and such that 53 bits suffice. -/
def nearestMagnitude (num den : Nat) : Nat :=
  let guess : Int := max ((num.log2 : Int) - den.log2 - 53) (-1074)
  let (n, d) := inUnits num den guess
  let unit := if twoTo 53 ≤ n / d then guess + 1 else guess
  let (n, d) := inUnits num den unit
  min ((unit + 1074).toNat * twoTo 52 + roundQuotient n d) infiniteMagnitude

/-- The double nearest to `digits · 10 ^ exponent`. Numbers far above or below all doubles are
recognised by their decimal exponent, so that no huge power is computed. -/
def ofDecimal (negative : Bool) (digits : Nat) (exponent : Int) : Double :=
  let order : Int := (decimal digits).length + exponent
  if digits = 0 ∨ order < -330 then ofMagnitude negative 0
  else if 310 < order then infinity negative
  else if 0 ≤ exponent then
    ofMagnitude negative (nearestMagnitude (digits * tenTo exponent.toNat) 1)
  else ofMagnitude negative (nearestMagnitude digits (tenTo (-exponent).toNat))

/-! ### Decimal numerals -/

/-- The exponent part of a numeral: nothing, or `e` and an optional sign and digits. -/
def exponent? : List Char → Option Int
  | [] => some 0
  | c :: rest =>
    if c = 'e' ∨ c = 'E' then
      match rest with
      | '-' :: digits => (nat? 10 digits).map fun n => -(n : Int)
      | '+' :: digits => (nat? 10 digits).map fun n => (n : Int)
      | digits => (nat? 10 digits).map fun n => (n : Int)
    else none

/-- A numeral without sign: digits with at most one point among or beside them, and an exponent. -/
def ofUnsigned? (negative : Bool) (cs : List Char) : Option Double := do
  let whole := cs.takeWhile isDigit
  let (fraction, rest) := match cs.dropWhile isDigit with
    | '.' :: rest => (rest.takeWhile isDigit, rest.dropWhile isDigit)
    | rest => ([], rest)
  let digits ← nat? 10 (whole ++ fraction)
  let exponent ← exponent? rest
  some (ofDecimal negative digits (exponent - fraction.length))

/-- The names of the values that are not finite, in any case, and unsigned numerals. -/
def ofMagnitudeText? (negative : Bool) (cs : List Char) : Option Double :=
  let word := String.ofList (cs.map Char.toLower)
  if word = "inf" || word = "infinity" then some (infinity negative)
  else if word = "nan" then some nan
  else ofUnsigned? negative cs

/-- The number that a text writes, if it writes one. -/
def ofText? : List Char → Option Double
  | '-' :: rest => ofMagnitudeText? true rest
  | '+' :: rest => ofMagnitudeText? false rest
  | cs => ofMagnitudeText? false cs

end Double

end OperatorBundle.Number
