import OperatorBundle.Yaml.Scalar.Quoted

/-!
Strings, keys and blanks of a TOML text, whose lines end in line feeds. Each reader returns what
follows.
-/

namespace OperatorBundle.Toml

open OperatorBundle.Text OperatorBundle.Yaml

/-- A space or a tab. -/
def skipBlanks (cs : List Char) : List Char := cs.dropWhile fun c => c = ' ' || c = '\t'

/-- A character that may stand in a comment or string: no control but the tab. -/
def isVisible (c : Char) : Bool := c = '\t' || (' ' ≤ c && c ≠ '\x7f')

/-- The text after the comment that may stand here, up to the end of its line. -/
def skipComment? (cs : List Char) : Option (List Char) :=
  match cs with
  | '#' :: rest =>
    match rest.dropWhile isVisible with
    | [] => some []
    | '\n' :: more => some ('\n' :: more)
    | _ => none
  | _ => some cs

/-- The text after blanks, comments and line ends; the flag says that a comment has begun. -/
def skipLines? : List Char → (inComment : Bool) → Option (List Char)
  | [], _ => some []
  | c :: rest, inComment =>
    if c = '\n' then skipLines? rest false
    else if inComment then if isVisible c then skipLines? rest true else none
    else if c = ' ' || c = '\t' then skipLines? rest false
    else if c = '#' then skipLines? rest true
    else some (c :: rest)

/-! ### Strings -/

/-- What a letter after a backslash stands for. -/
def escapedLetter? (c : Char) : Option Char :=
  ([('b', '\x08'), ('t', '\t'), ('n', '\n'), ('f', '\x0c'), ('r', '\r'), ('"', '"'),
    ('\\', '\\')] : List (Char × Char)).lookup c

/-- The number of digits after an escape letter. -/
def codeLength? (c : Char) : Option Nat := ([('u', 4), ('U', 8)] : List (Char × Nat)).lookup c

/-- Where a reader of a string stands: in the text, after a backslash, among the digits of a code
point, or after a backslash that ends its line, before or after the line end. -/
inductive StringState
  | text
  | escape
  | code (left value : Nat)
  | lineEnding
  | lineStart

/-- Whether blanks and line ends are left out here. -/
def StringState.skipsBlanks : StringState → Bool
  | .lineStart => true
  | _ => false

/-- The rest of a string in double quotes, one or three: its text, held latest character first on
the way. Up to two quotes may stand before three that close the string. -/
def basicRest (long : Bool) :
    List Char → StringState → List Char → Option (List Char × List Char)
  | [], _, _ => none
  | c :: rest, .escape, text =>
    match codeLength? c, escapedLetter? c with
    | some length, _ => basicRest long rest (.code length 0) text
    | none, some d => basicRest long rest .text (d :: text)
    | none, none =>
      if !long then none
      else if c = '\n' then basicRest long rest .lineStart text
      else if c = ' ' || c = '\t' then basicRest long rest .lineEnding text
      else none
  | c :: rest, .code left value, text =>
    match digitValue? c with
    | none => none
    | some d =>
      if left ≤ 1 then
        match charOfCode? (value * 16 + d) with
        | some e => basicRest long rest .text (e :: text)
        | none => none
      else basicRest long rest (.code (left - 1) (value * 16 + d)) text
  | c :: rest, .lineEnding, text =>
    if c = '\n' then basicRest long rest .lineStart text
    else if c = ' ' || c = '\t' then basicRest long rest .lineEnding text
    else none
  | c :: rest, state, text =>
    let blank := c = ' ' || c = '\t' || c = '\n'
    if state.skipsBlanks && blank then basicRest long rest .lineStart text
    else if c = '\\' then basicRest long rest .escape text
    else if c = '"' then
      if !long then some (text.reverse, rest)
      else match rest with
        | '"' :: '"' :: after =>
          let more := min 2 (after.takeWhile (· = '"')).length
          some (text.reverse ++ List.replicate more '"', after.drop more)
        | _ => basicRest long rest .text ('"' :: text)
    else if isVisible c || (long && c = '\n') then basicRest long rest .text (c :: text)
    else none

/-- The rest of a string between three single quotes. -/
def longLiteral : List Char → List Char → Option (List Char × List Char)
  | '\'' :: '\'' :: '\'' :: after, text =>
    let more := min 2 (after.takeWhile (· = '\'')).length
    some (text.reverse ++ List.replicate more '\'', after.drop more)
  | c :: rest, text =>
    if isVisible c || c = '\n' then longLiteral rest (c :: text) else none
  | [], _ => none

/-- The rest of a string between single quotes. -/
def literal (cs : List Char) : Option (List Char × List Char) :=
  match cs.dropWhile fun c => isVisible c && c ≠ '\'' with
  | '\'' :: after => some (cs.takeWhile fun c => isVisible c && c ≠ '\'', after)
  | _ => none

/-- A text without the line end that it may start with. -/
def afterLineEnd : List Char → List Char
  | '\n' :: rest => rest
  | cs => cs

/-- The string on one line at the start of a text. -/
def shortString? : List Char → Option (List Char × List Char)
  | '"' :: rest => basicRest false rest .text []
  | '\'' :: rest => literal rest
  | _ => none

/-- The string at the start of a text. A line end right after three opening quotes does not
count. -/
def string? : List Char → Option (List Char × List Char)
  | '"' :: '"' :: '"' :: rest => basicRest true (afterLineEnd rest) .text []
  | '\'' :: '\'' :: '\'' :: rest => longLiteral (afterLineEnd rest) []
  | cs => shortString? cs

/-! ### Keys -/

/-- One part of a key. -/
def keyPart? (cs : List Char) : Option (String × List Char) :=
  match shortString? cs with
  | some (name, rest) => some (String.ofList name, rest)
  | none =>
    let name := cs.takeWhile isWord
    if name.isEmpty then none else some (String.ofList name, cs.dropWhile isWord)

/-- The parts of a key, with dots between them. -/
def keyParts? : Nat → List Char → Option (List String × List Char)
  | 0, _ => none
  | fuel + 1, cs => do
    let (part, rest) ← keyPart? cs
    match skipBlanks rest with
    | '.' :: more =>
      let (parts, rest) ← keyParts? fuel (skipBlanks more)
      some (part :: parts, rest)
    | rest => some ([part], rest)

end OperatorBundle.Toml
