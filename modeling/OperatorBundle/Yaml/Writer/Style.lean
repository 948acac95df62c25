import OperatorBundle.Yaml.Scalar.Kind
import OperatorBundle.Yaml.Charset

/-!
How a scalar is written: plainly where that reads back as the same text, else in single quotes, as a
literal block if it has several lines, or in double quotes where nothing else can hold it.
-/

namespace OperatorBundle.Yaml

open OperatorBundle.Text

/-- The ways to write a scalar. -/
inductive Style
  | plain
  | single
  | double
  | literal
  deriving DecidableEq, Repr

/-- A character that ends a line for some reader of the text. -/
def endsLine (c : Char) : Bool := isBreak c || c = '\r' || c = '\x85'

/-- A character that can be written as it is. -/
def isWritable (c : Char) : Bool :=
  let n := c.val
  n = 0x0A || (0x20 ≤ n && n ≤ 0x7E) || (0xA0 ≤ n && n ≤ 0xD7FF) ||
    (0xE000 ≤ n && n ≤ 0xFFFD && n ≠ 0xFEFF) || 0x10000 ≤ n

/-- Whether a character separates words: a blank, a break or the zero character. -/
def separates (c : Char) : Bool := isPad c || endsLine c || c = '\x00'

/-- Whether two neighbours satisfy a condition somewhere in a text. -/
def anyPair (p : Char → Char → Bool) (cs : List Char) : Bool :=
  (cs.zip cs.tail).any fun (a, b) => p a b

/-- Whether the next character separates words, or there is none. -/
def separatedNext : List Char → Bool
  | [] => true
  | c :: _ => separates c

/-- Whether a plain text that starts so would be read as something else. -/
def startsAmiss : List Char → Bool
  | [] => false
  | c :: rest =>
    ['#', ',', '[', ']', '\x7b', '\x7d', '&', '*', '!', '|', '>', '\'', '"', '%', '@',
      '\x60'].contains c ||
    (['?', ':', '-'].contains c && separatedNext rest) ||
    ['-', '-', '-'].isPrefixOf (c :: rest) || ['.', '.', '.'].isPrefixOf (c :: rest)

/-- Whether a plain text would end before its last character: at a colon before a gap, or at a
comment. -/
def endsEarly (cs : List Char) : Bool :=
  anyPair (fun a b => (a = ':' && separates b) || (separates a && b = '#')) cs ||
    cs.getLast? = some ':'

/-- What keeps a text from being written in one way or another. -/
structure Obstacles where
  severalLines : Bool
  plain : Bool
  single : Bool
  literal : Bool

/-- The obstacles of a text. -/
def obstacles (cs : List Char) : Obstacles :=
  let severalLines := cs.any endsLine
  let blankOrBreak (c : Option Char) := c.any fun c => c = ' ' || endsLine c
  let breakThenSpace := anyPair (fun a b => endsLine a && b = ' ') cs
  let spaceThenBreak := anyPair (fun a b => a = ' ' && endsLine b) cs
  let unwritable := cs.any fun c => !isWritable c
  let single := breakThenSpace || spaceThenBreak || unwritable
  { severalLines := severalLines
    plain := single || severalLines || blankOrBreak cs.head? || blankOrBreak cs.getLast? ||
      startsAmiss cs || endsEarly cs
    single := single
    literal := cs.isEmpty || spaceThenBreak || unwritable || cs.getLast? = some ' ' }

/-- The way that comes nearest to the one asked for. A key before its colon stays on one line. -/
def Style.fit (style : Style) (cs : List Char) (asKey : Bool) : Style :=
  let o := obstacles cs
  let quotes : Style := if o.single then .double else .single
  if asKey && o.severalLines then .double
  else match style with
    | .plain => if o.plain || (asKey && cs.isEmpty) then quotes else .plain
    | .single => quotes
    | .literal => if o.literal || asKey then .double else .literal
    | .double => .double

/-- The way to write a string: a literal if it holds a line feed, in quotes if a plain scalar of its
text would be read as no string, or as one only because of its leading zeros. -/
def Style.ofText (cs : List Char) : Style :=
  if cs.contains '\n' then .literal
  else if readsAsText cs && !isZeroPadded cs then .plain else .single

end OperatorBundle.Yaml
