import OperatorBundle.Number.Double

/-!
The shortest decimal numeral of a double: the fewest digits that read back as the same double, and
of those the nearest to it. A finite double is `m · 2 ^ q`, and all reals between the two midpoints
to its neighbours read as it; the midpoints themselves do when `m` is even.
-/

namespace OperatorBundle.Number.Double

open OperatorBundle.Text

/-- The reals that read as one double, in quarters of its last bit: the ends and the value itself
are multiples of `2 ^ unit`. -/
structure Interval where
  low : Nat
  value : Nat
  high : Nat
  closed : Bool
  unit : Int

/-- The interval of a finite double with the given magnitude bits. Below a power of two the
neighbour is nearer. -/
def interval (magnitude : Nat) : Interval :=
  let exponent := magnitude / twoTo 52
  let fraction := magnitude % twoTo 52
  let m := if exponent = 0 then fraction else fraction + twoTo 52
  { low := if fraction = 0 ∧ 1 < exponent then 4 * m - 1 else 4 * m - 2
    value := 4 * m
    high := 4 * m + 2
    closed := m % 2 = 0
    unit := (max exponent 1 : Nat) - 1077 }

/-- `n · 2 ^ unit` and `d · 10 ^ place` over a common denominator. -/
def aligned (unit : Int) (n : Nat) (place : Int) (d : Nat) : Nat × Nat :=
  (n * twoTo unit.toNat * tenTo (-place).toNat, d * tenTo place.toNat * twoTo (-unit).toNat)

/-- Whether `d · 10 ^ place` lies in the interval. -/
def Interval.contains (i : Interval) (place : Int) (d : Nat) : Bool :=
  let (low, x) := aligned i.unit i.low place d
  let (high, _) := aligned i.unit i.high place d
  if i.closed then low ≤ x && x ≤ high else low < x && x < high

/-- The number of digits before the point, or minus the number of zeros after it: the least `k` with
the value below `10 ^ k`. -/
def Interval.order (i : Interval) : Int :=
  let num := i.value * twoTo i.unit.toNat
  let den := twoTo (-i.unit).toNat
  if den ≤ num then (decimal (num / den)).length
  else match (List.range 400).find? fun k => den ≤ num * tenTo (k + 1) with
    | some zeros => -(zeros : Int)
    | none => -400

/-- The nearer of the two neighbours of the value on the grid of a decimal place, of those that lie
in the interval; an exact tie goes to the even one. -/
def Interval.neighbour? (i : Interval) (place : Int) : Option Nat :=
  let (num, den) := aligned i.unit i.value place 1
  let d := num / den
  let up := i.contains place (d + 1)
  if i.contains place d then
    if up && roundQuotient num den = d + 1 then some (d + 1) else some d
  else if up then some (d + 1) else none

/-- A number without the zeros at its end, and their count added to the exponent. -/
def withoutZeros : Nat → Nat → Int → Nat × Int
  | 0, digits, exponent => (digits, exponent)
  | fuel + 1, digits, exponent =>
    if digits ≠ 0 ∧ digits % 10 = 0 then withoutZeros fuel (digits / 10) (exponent + 1)
    else (digits, exponent)

/-- The digits and the exponent of the shortest numeral of a finite positive magnitude: the first
of the grids of 1, 2, … 17 digits that has a point in the interval. -/
def shortest (magnitude : Nat) : Nat × Int :=
  let i := interval magnitude
  let order := i.order
  match (List.range 17).findSome? fun k =>
      let place := order - (k + 1 : Nat)
      (i.neighbour? place).map fun d => (d, place) with
  | some (digits, place) => withoutZeros 20 digits place
  | none => (0, 0)

/-- How numbers are laid out: positionally when the point falls at most `wholeMax` places after the
first digit, or the number has fewer than `zerosMax` zeros after the point, and with a power of ten
otherwise. -/
structure Layout where
  wholeMax : Int
  zerosMax : Int

/-- The digits of a positive finite number, laid out. A whole number keeps one zero after the point
if it is written positionally. -/
def Layout.finite (style : Layout) (digits : List Char) (exponent : Int) : List Char :=
  let point := digits.length + exponent
  if 0 ≤ exponent ∧ point ≤ style.wholeMax then
    digits ++ List.replicate exponent.toNat '0' ++ ['.', '0']
  else if 0 < point ∧ point ≤ style.wholeMax then
    digits.take point.toNat ++ ['.'] ++ digits.drop point.toNat
  else if -style.zerosMax < point ∧ point ≤ 0 then
    ['0', '.'] ++ List.replicate (-point).toNat '0' ++ digits
  else
    let power := 'e' :: decimalInt (point - 1)
    match digits with
    | first :: second :: more => first :: '.' :: second :: more ++ power
    | digits => digits ++ power

/-- Numbers in documents are positional from `0.00001` up to sixteen digits before the point. -/
def documentLayout : Layout := ⟨16, 5⟩

/-- The text of a number in a document. -/
def text (x : Double) : List Char :=
  let sign := if x.isNegative then ['-'] else []
  if x.isNaN then ['.', 'n', 'a', 'n']
  else if x.isInfinite then sign ++ ['.', 'i', 'n', 'f']
  else if x.magnitude = 0 then sign ++ ['0', '.', '0']
  else
    let (digits, exponent) := shortest x.magnitude
    sign ++ documentLayout.finite (decimal digits) exponent

end OperatorBundle.Number.Double
