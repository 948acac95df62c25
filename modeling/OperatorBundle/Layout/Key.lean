import OperatorBundle.Text.Blank

/-!
The key of a mapping entry on one line: what stands before the colon that ends it. A quoted key ends
at its closing quote, any other at the first colon before a space or the end of the line.
-/

namespace OperatorBundle.Layout

open OperatorBundle.Text

/-- The text after an opening quote up to and with the quote that closes it, and the rest. Between
double quotes a backslash hides the character after it; between single quotes a quote is written
twice. -/
def closeQuote? (quote : Char) : List Char → Option (List Char × List Char)
  | [] => none
  | [c] => if c = quote then some ([c], []) else none
  | c :: d :: rest =>
    -- a backslash and the character that it hides are taken at once
    if c = '\\' ∧ quote = '"' then
      (closeQuote? quote rest).map fun (inner, after) => (c :: d :: inner, after)
    else if c = quote then
      if quote = '\'' ∧ d = quote then
        (closeQuote? quote rest).map fun (inner, after) => (c :: d :: inner, after)
      else some ([c], d :: rest)
    else (closeQuote? quote (d :: rest)).map fun (inner, after) => (c :: inner, after)

/-- Whether a value may follow a colon here. -/
def atValue : List Char → Bool
  | [] => true
  | c :: _ => c = ' '

/-- The text before the first colon that a value may follow, and the text after that colon. -/
def splitColon? : List Char → Option (List Char × List Char)
  | [] => none
  | c :: rest =>
    if c = ':' && atValue rest then some ([], rest)
    else (splitColon? rest).map fun (before, after) => (c :: before, after)

/-- Characters that start no key: indicators of flow collections, tags, anchors, aliases, block
scalars, comments, directives, complex keys and items. -/
def startsNoKey (c : Char) : Bool :=
  ['\x7b', '[', '?', '&', '*', '!', '%', '@', '\x60', '|', '>', '#', '-'].contains c

/-- The key of an entry as written, and what follows its colon. -/
def splitKey? (text : List Char) : Option (List Char × List Char) :=
  match text with
  | [] => none
  | c :: rest =>
    if c = '"' ∨ c = '\'' then do
      let (inner, after) ← closeQuote? c rest
      match trimLeft after with
      | ':' :: value => if atValue value then some (c :: inner, value) else none
      | _ => none
    else if startsNoKey c then none
    else (splitColon? text).map fun (key, value) => (trimRight key, value)

end OperatorBundle.Layout
