import OperatorBundle.Text.Digits
import OperatorBundle.Yaml.Scalar.Folding
import OperatorBundle.Yaml.Fault

/-!
Quoted scalars. Between single quotes only the quote itself is special, and written twice; between
double quotes a backslash starts an escape sequence. Both fold their lines.
-/

namespace OperatorBundle.Yaml

open OperatorBundle.Text

/-- The kind of quote around a scalar. -/
inductive Quote
  | single
  | double
  deriving DecidableEq

/-- The character of a quote. -/
def Quote.char : Quote → Char
  | .single => '\''
  | .double => '"'

/-- What one letter after a backslash stands for. -/
def escapedChar? (c : Char) : Option Char :=
  ([('0', '\x00'), ('a', '\x07'), ('b', '\x08'), ('t', '\t'), ('\t', '\t'), ('n', '\n'),
    ('v', '\x0b'), ('f', '\x0c'), ('r', '\r'), ('e', '\x1b'), (' ', ' '), ('"', '"'), ('/', '/'),
    ('\\', '\\'), ('N', '\x85'), ('_', '\xa0'), ('L', '\u2028'), ('P', '\u2029')] :
    List (Char × Char)).lookup c

/-- The number of hexadecimal digits after an escape letter. -/
def escapeLength? (c : Char) : Option Nat :=
  ([('x', 2), ('u', 4), ('U', 8)] : List (Char × Nat)).lookup c

/-- The character with a code point, if there is one. -/
def charOfCode? (n : Nat) : Option Char :=
  if (n < 0xD800 ∨ 0xDFFF < n) ∧ n ≤ 0x10FFFF then some (Char.ofNat n) else none

/-- Where a reader of a quoted scalar stands: in the text, after a single quote that closes the
scalar unless another follows, after a backslash, or among the digits of a code point. -/
inductive QuoteState
  | text
  | quote
  | escape
  | code (left value : Nat)

/-- The rest of a quoted scalar: its text, held latest character first on the way, and the number
of characters it took. A mark between documents may not start a line of it. -/
def quotedRest (kind : Quote) :
    List Char → Nat → QuoteState → Gap → List Char → Nat → Except Fault (List Char × Nat)
  | [], _, .quote, _, text, used => .ok (text.reverse, used)
  | [], _, _, _, _, _ => .error .unclosedQuote
  | c :: rest, column, .quote, _, text, used =>
    if c = '\'' then quotedRest kind rest (column + 1) .text Gap.none ('\'' :: text) (used + 1)
    else .ok (text.reverse, used)
  | c :: rest, column, .escape, _, text, used =>
    if isBreak c then quotedRest kind rest 0 .text Gap.escapedBreak text (used + 1)
    else match escapeLength? c, escapedChar? c with
      | some length, _ =>
        quotedRest kind rest (column + 1) (.code length 0) Gap.none text (used + 1)
      | none, some d => quotedRest kind rest (column + 1) .text Gap.none (d :: text) (used + 1)
      | none, none => .error .escape
  | c :: rest, column, .code left value, _, text, used =>
    match digitValue? c with
    | none => .error .escape
    | some d =>
      if left ≤ 1 then
        match charOfCode? (value * 16 + d) with
        | some e => quotedRest kind rest (column + 1) .text Gap.none (e :: text) (used + 1)
        | none => .error .escape
      else
        quotedRest kind rest (column + 1) (.code (left - 1) (value * 16 + d)) Gap.none text
          (used + 1)
  | c :: rest, column, .text, gap, text, used =>
    if isPad c then quotedRest kind rest (column + 1) .text (gap.addPad c) text (used + 1)
    else if isBreak c then quotedRest kind rest 0 .text (gap.addBreak c) text (used + 1)
    else
      let text := gap.folded ++ text
      if column = 0 && isDocumentMark (c :: rest) then .error .unclosedQuote
      else if c = kind.char then
        match kind with
        | .single => quotedRest kind rest (column + 1) .quote Gap.none text (used + 1)
        | .double => .ok (text.reverse, used + 1)
      else if c = '\\' && kind = .double then
        quotedRest kind rest (column + 1) .escape Gap.none text (used + 1)
      else quotedRest kind rest (column + 1) .text Gap.none (c :: text) (used + 1)

/-- The quoted scalar after an opening quote, the column being that of the first character in it,
and the number of characters it takes with its closing quote. -/
def quotedScalar (kind : Quote) (column : Nat) (cs : List Char) : Except Fault (List Char × Nat) :=
  quotedRest kind cs column .text Gap.none [] 0

end OperatorBundle.Yaml
