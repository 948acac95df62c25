import Mathlib.Data.List.Basic
import OperatorBundle.Json.Basic

/-!
A reader of JSON texts. A text is cut into tokens, and a machine takes them one by one and keeps the
arrays and objects that are still open. What it keeps of a numeral is the numeral.
-/

namespace OperatorBundle.Json

open OperatorBundle.Text

/-! ### Strings -/

/-- The character that a letter after a backslash stands for. -/
def escaped? (c : Char) : Option Char :=
  if c = '"' || c = '\\' || c = '/' then some c
  else if c = 'b' then some '\x08'
  else if c = 'f' then some '\x0c'
  else if c = 'n' then some '\n'
  else if c = 'r' then some '\r'
  else if c = 't' then some '\t'
  else none

/-- The character whose code four digits write. -/
def coded? (digits : List Char) : Option Char := do
  let code ← nat? 16 digits
  if code.isValidChar then some (Char.ofNat code) else none

/-- The character beyond the first plane that four and four digits write as a surrogate pair. -/
def paired? (high low : List Char) : Option Char := do
  let first ← nat? 16 high
  let second ← nat? 16 low
  if 0xd800 ≤ first ∧ first < 0xdc00 ∧ 0xdc00 ≤ second ∧ second < 0xe000 then
    some (Char.ofNat (0x10000 + (first - 0xd800) * 0x400 + (second - 0xdc00)))
  else none

/-- A character before what is read. -/
def before (c : Char) (read : List Char × List Char) : List Char × List Char :=
  (c :: read.1, read.2)

/-- The characters of a string up to its closing quote, and what follows it. -/
def readString : List Char → Option (List Char × List Char)
  | [] => none
  | '"' :: rest => some ([], rest)
  | '\\' :: 'u' :: x :: y :: z :: w :: rest =>
    match coded? [x, y, z, w], rest with
    | some c, rest => (readString rest).map (before c)
    | none, '\\' :: 'u' :: x' :: y' :: z' :: w' :: rest =>
      (paired? [x, y, z, w] [x', y', z', w']).bind fun c => (readString rest).map (before c)
    | none, _ => none
  | '\\' :: letter :: rest => (escaped? letter).bind fun c => (readString rest).map (before c)
  | c :: rest => if c < ' ' then none else (readString rest).map (before c)

theorem length_of_map_before {c : Char} {text value rest : List Char}
    (ih : ∀ {value rest}, readString text = some (value, rest) → rest.length < text.length)
    (h : (readString text).map (before c) = some (value, rest)) : rest.length < text.length := by
  obtain ⟨⟨found, more⟩, hfound, hbefore⟩ := Option.map_eq_some_iff.1 h
  obtain rfl : more = rest := congrArg Prod.snd hbefore
  exact ih hfound

/-- A string takes at least its closing quote. -/
theorem length_of_readString {text value rest : List Char}
    (h : readString text = some (value, rest)) : rest.length < text.length := by
  fun_induction readString text generalizing value rest with
  | case1 => cases h
  | case2 rest =>
    cases h
    simp
  | case3 x y z w rest c _ ih =>
    have := length_of_map_before ih h
    simp only [List.length_cons]
    omega
  | case4 x y z w _ x' y' z' w' rest ih =>
    obtain ⟨c, -, h⟩ := Option.bind_eq_some_iff.1 h
    have := length_of_map_before ih h
    simp only [List.length_cons]
    omega
  | case5 => cases h
  | case6 letter rest _ ih =>
    obtain ⟨c, -, h⟩ := Option.bind_eq_some_iff.1 h
    have := length_of_map_before ih h
    simp only [List.length_cons]
    omega
  | case7 => cases h
  | case8 c rest _ _ _ _ ih => exact Nat.lt_succ_of_lt (length_of_map_before ih h)

/-! ### Tokens -/

/-- What a JSON text is made of: brackets, braces, commas and colons, strings, and words, which are
numerals and the three literals. -/
inductive Token
  | mark (c : Char)
  | string (text : String)
  | word (letters : List Char)
  deriving DecidableEq

/-- Whether a character stands between tokens. -/
def isSpace (c : Char) : Bool := c = ' ' || c = '\t' || c = '\n' || c = '\r'

/-- Whether a character is a token of its own. -/
def isMark (c : Char) : Bool :=
  c = '[' || c = ']' || c = '\x7b' || c = '\x7d' || c = ',' || c = ':'

/-- Whether a character is part of a word. -/
def isLetter (c : Char) : Bool := c.isAlphanum || c = '+' || c = '-' || c = '.'

/-- The tokens of a text. -/
def tokens? : List Char → Option (List Token)
  | [] => some []
  | c :: rest =>
    if isSpace c then tokens? rest
    else if isMark c then (tokens? rest).map (.mark c :: ·)
    else if c = '"' then
      match _h : readString rest with
      | some (value, more) => (tokens? more).map (.string (String.ofList value) :: ·)
      | none => none
    else if isLetter c then
      (tokens? (rest.dropWhile isLetter)).map (.word (c :: rest.takeWhile isLetter) :: ·)
    else none
termination_by text => text.length
decreasing_by
  · simp
  · simp
  · exact Nat.lt_succ_of_lt (length_of_readString ‹_›)
  · exact Nat.lt_succ_of_le (rest.dropWhile_sublist isLetter).length_le

/-! ### Numerals -/

/-- How far a numeral is read. -/
inductive Numeral
  | start
  | sign
  | zero
  | whole
  | point
  | fraction
  | exponentMark
  | exponentSign
  | exponent

namespace Numeral

/-- The first digit, after which a zero has no others. -/
def first (c : Char) : Option Numeral :=
  if c = '0' then some .zero else if isDigit c then some .whole else none

/-- The exponent that may end a numeral. -/
def exponentAt (c : Char) : Option Numeral :=
  if c = 'e' || c = 'E' then some .exponentMark else none

/-- What may follow the digits before the point. -/
def afterWhole (c : Char) : Option Numeral := if c = '.' then some .point else exponentAt c

/-- A numeral with one more character. -/
def step : Numeral → Char → Option Numeral
  | .start, c => if c = '-' then some .sign else first c
  | .sign, c => first c
  | .zero, c => afterWhole c
  | .whole, c => if isDigit c then some .whole else afterWhole c
  | .point, c => if isDigit c then some .fraction else none
  | .fraction, c => if isDigit c then some .fraction else exponentAt c
  | .exponentMark, c =>
    if c = '+' || c = '-' then some .exponentSign else if isDigit c then some .exponent else none
  | .exponentSign, c => if isDigit c then some .exponent else none
  | .exponent, c => if isDigit c then some .exponent else none

/-- Whether a numeral may end here. -/
def isEnd : Numeral → Bool
  | .zero | .whole | .fraction | .exponent => true
  | _ => false

end Numeral

/-- Whether a word is a numeral. -/
def isNumeral (letters : List Char) : Bool := (letters.foldlM Numeral.step .start).any (·.isEnd)

/-- The document that a word writes. -/
def scalar? (letters : List Char) : Option Json :=
  if letters = ['n', 'u', 'l', 'l'] then some .null
  else if letters = ['t', 'r', 'u', 'e'] then some (.bool true)
  else if letters = ['f', 'a', 'l', 's', 'e'] then some (.bool false)
  else if isNumeral letters then some (.number (String.ofList letters))
  else none

/-! ### Documents -/

/-- An array or object that is still open, with what it holds so far, the last first: in an object,
the member whose value is due has its name. -/
inductive Frame
  | array (items : List Json)
  | object (members : List (String × Json)) (name : String)

/-- What is due: a value, the name of a member, the colon after it, or what follows a value. -/
inductive Due
  | value
  | name (members : List (String × Json))
  | colon (members : List (String × Json)) (name : String)
  | next (json : Json)

/-- A reader of tokens: what is due, and what is open around it, the innermost first. -/
structure Reader where
  due : Due
  frames : List Frame

/-- A reader that takes one token. -/
def Reader.step : Reader → Token → Option Reader
  | ⟨.value, frames⟩, .mark '[' => some ⟨.value, .array [] :: frames⟩
  | ⟨.value, .array [] :: frames⟩, .mark ']' => some ⟨.next (.array []), frames⟩
  | ⟨.value, frames⟩, .mark '\x7b' => some ⟨.name [], frames⟩
  | ⟨.value, frames⟩, .string text => some ⟨.next (.string text), frames⟩
  | ⟨.value, frames⟩, .word letters => (scalar? letters).map fun json => ⟨.next json, frames⟩
  | ⟨.name [], frames⟩, .mark '\x7d' => some ⟨.next (.object []), frames⟩
  | ⟨.name members, frames⟩, .string name => some ⟨.colon members name, frames⟩
  | ⟨.colon members name, frames⟩, .mark ':' => some ⟨.value, .object members name :: frames⟩
  | ⟨.next json, .array items :: frames⟩, .mark ',' =>
    some ⟨.value, .array (json :: items) :: frames⟩
  | ⟨.next json, .array items :: frames⟩, .mark ']' =>
    some ⟨.next (.array (json :: items).reverse), frames⟩
  | ⟨.next json, .object members name :: frames⟩, .mark ',' =>
    some ⟨.name ((name, json) :: members), frames⟩
  | ⟨.next json, .object members name :: frames⟩, .mark '\x7d' =>
    some ⟨.next (.object ((name, json) :: members).reverse), frames⟩
  | _, _ => none

/-- The document that a reader has read, once nothing is open. -/
def Reader.document? : Reader → Option Json
  | ⟨.next json, []⟩ => some json
  | _ => none

/-- The document that tokens write. -/
def ofTokens? (tokens : List Token) : Option Json :=
  (tokens.foldlM Reader.step ⟨.value, []⟩).bind Reader.document?

/-- The document that a text writes. -/
def ofText? (text : String) : Option Json := (tokens? text.toList).bind ofTokens?

example : ofText? "\x7b\"a\" : [-1.5e3, true, \"\\ud83d\\ude00\\/\"] \x7d" =
    some (.object [("a", .array [.number "-1.5e3", .bool true, .string "😀/"])]) := by
  cbv

example : ofText? "[1,]" = none := by cbv

end OperatorBundle.Json
