import OperatorBundle.Number.Double
import OperatorBundle.Toml.Basic

/-!
Numbers, truth values and dates of a TOML text: words that are told apart by their form.
-/

namespace OperatorBundle.Toml

open OperatorBundle.Text OperatorBundle.Number

/-- Whether a text may follow a digit: further digits, each perhaps after an underscore. -/
def followsDigit (base : Nat) : List Char → Bool
  | [] => true
  | '_' :: c :: rest => (digitIn? base c).isSome && followsDigit base rest
  | c :: rest => (digitIn? base c).isSome && followsDigit base rest

/-- Whether a text is digits of a base, with single underscores between them. -/
def isDigitGroup (base : Nat) : List Char → Bool
  | [] => false
  | c :: rest => (digitIn? base c).isSome && followsDigit base rest

/-- A text without its underscores. -/
def digitsOf (cs : List Char) : List Char := cs.filter (· ≠ '_')

/-- A text without the sign that it may start with. -/
def unsigned : List Char → List Char
  | '+' :: rest => rest
  | '-' :: rest => rest
  | cs => cs

/-- Whether a text is a decimal number without a sign: zero, or digits that do not start with it. -/
def isDecimal (cs : List Char) : Bool :=
  isDigitGroup 10 cs && (cs = ['0'] || cs.head? ≠ some '0')

/-- Whether a text is an integer of 64 bits. -/
def isInteger (cs : List Char) : Bool :=
  let fits (limit : Nat) (base : Nat) (digits : List Char) : Bool :=
    isDigitGroup base digits && (nat? base (digitsOf digits)).any (· ≤ limit)
  match cs with
  | '0' :: 'x' :: digits => fits (twoTo 63 - 1) 16 digits
  | '0' :: 'o' :: digits => fits (twoTo 63 - 1) 8 digits
  | '0' :: 'b' :: digits => fits (twoTo 63 - 1) 2 digits
  | '-' :: digits => isDecimal digits && fits (twoTo 63) 10 digits
  | _ => isDecimal (unsigned cs) && fits (twoTo 63 - 1) 10 (unsigned cs)

/-- Whether a text is an exponent, or nothing. -/
def isExponent : List Char → Bool
  | [] => true
  | c :: rest => (c = 'e' || c = 'E') && isDigitGroup 10 (unsigned rest)

/-- Whether a text is a number with a fraction, an exponent or both, or a word for one that is not
finite. A numeral may not exceed the greatest number. -/
def isFloat (cs : List Char) : Bool :=
  let body := unsigned cs
  let isPart (c : Char) := isDigit c || c = '_'
  let whole := body.takeWhile isPart
  let inForm :=
    isDecimal whole && match body.dropWhile isPart with
      | '.' :: rest =>
        isDigitGroup 10 (rest.takeWhile isPart) && isExponent (rest.dropWhile isPart)
      | [] => false
      | rest => isExponent rest
  body = "inf".toList || body = "nan".toList ||
    (inForm && (Double.ofText? (digitsOf cs)).any fun x => !(x.isInfinite && !x.isNegative))

/-! ### Dates -/

/-- The number written by the first digits of a text, if they lie in a range, and what follows. -/
def field? (width low high : Nat) (cs : List Char) : Option (Nat × List Char) := do
  let digits := cs.take width
  if digits.length = width ∧ digits.all isDigit then
    let n ← nat? 10 digits
    if low ≤ n ∧ n ≤ high then some (n, cs.drop width) else none
  else none

/-- What follows a character. -/
def after? (c : Char) : List Char → Option (List Char)
  | d :: rest => if c = d then some rest else none
  | [] => none

/-- The number of days of a month. -/
def daysInMonth (year month : Nat) : Nat :=
  if month = 2 then
    if year % 4 = 0 ∧ (year % 100 ≠ 0 ∨ year % 400 = 0) then 29 else 28
  else if month = 4 ∨ month = 6 ∨ month = 9 ∨ month = 11 then 30 else 31

/-- What follows a date. -/
def afterDate? (cs : List Char) : Option (List Char) := do
  let (year, cs) ← field? 4 0 9999 cs
  let (month, cs) ← field? 2 1 12 (← after? '-' cs)
  let (_, cs) ← field? 2 1 (daysInMonth year month) (← after? '-' cs)
  some cs

/-- What follows a time of day. -/
def afterTime? (cs : List Char) : Option (List Char) := do
  let (_, cs) ← field? 2 0 23 cs
  let (_, cs) ← field? 2 0 59 (← after? ':' cs)
  let (_, cs) ← field? 2 0 60 (← after? ':' cs)
  match cs with
  | '.' :: rest => if (rest.head?.any isDigit) then some (rest.dropWhile isDigit) else none
  | _ => some cs

/-- Whether a text is an offset from universal time, or nothing. -/
def isOffset (cs : List Char) : Bool :=
  match cs with
  | [] | ['Z'] | ['z'] => true
  | c :: rest =>
    (c = '+' || c = '-') &&
      (do
        let (_, rest) ← field? 2 0 23 rest
        let (_, rest) ← field? 2 0 59 (← after? ':' rest)
        some rest.isEmpty : Option Bool) = some true

/-- Whether a text is a time of day, and an offset if it follows a date. -/
def isTime (dated : Bool) (cs : List Char) : Bool :=
  (afterTime? cs).any fun rest => if dated then isOffset rest else rest.isEmpty

/-- The value that a word writes. -/
def word? (cs : List Char) : Option Toml :=
  if cs = "true".toList then some (.boolean true)
  else if cs = "false".toList then some (.boolean false)
  else if isTime false cs then some .date
  else match afterDate? cs with
    | some [] => some .date
    | some (c :: rest) => if (c = 'T' || c = 't') && isTime true rest then some .date else none
    | none =>
      if isFloat cs then some .float else if isInteger cs then some .integer else none

/-- A character of a word. -/
def isWordPart (c : Char) : Bool :=
  c.isAlphanum || c = '_' || c = '+' || c = '-' || c = '.' || c = ':'

/-- The value that a word at the start of a text writes, and what follows. A space may stand between
a date and a time. -/
def wordAt? (cs : List Char) : Option (Toml × List Char) :=
  let word := cs.takeWhile isWordPart
  let rest := cs.dropWhile isWordPart
  match afterDate? word, rest with
  | some [], ' ' :: more =>
    let time := more.takeWhile isWordPart
    if time.isEmpty then some (.date, rest)
    else if isTime true time then some (.date, more.dropWhile isWordPart) else none
  | _, _ => (word? word).map fun value => (value, rest)

end OperatorBundle.Toml
