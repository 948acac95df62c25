/-!
The characters of YAML text. Every line break but the two Unicode separators is read as a line
feed, so the rest of the reader knows three breaks only.
-/

namespace OperatorBundle.Yaml

/-- Whether a character may stand in a YAML text at all. -/
def isAllowed (c : Char) : Bool :=
  let n := c.val
  n = 9 || n = 10 || n = 13 || (0x20 ≤ n && n ≤ 0x7E) || n = 0x85 || (0xA0 ≤ n && n ≤ 0xD7FF) ||
    (0xE000 ≤ n && n ≤ 0xFFFD) || 0x10000 ≤ n

/-- The text with each line ended by a line feed: a carriage return with or without a line feed and
the next-line character end a line too. -/
def normaliseBreaks : List Char → List Char
  | '\r' :: '\n' :: rest => '\n' :: normaliseBreaks rest
  | c :: rest => (if c = '\r' || c = '\x85' then '\n' else c) :: normaliseBreaks rest
  | [] => []

/-- A line break of a normalised text. -/
def isBreak (c : Char) : Bool := c = '\n' || c = '\u2028' || c = '\u2029'

/-- A space or a tab. -/
def isPad (c : Char) : Bool := c = ' ' || c = '\t'

/-- A character of an anchor, a tag handle or a directive name. -/
def isWord (c : Char) : Bool :=
  ('0' ≤ c && c ≤ '9') || ('A' ≤ c && c ≤ 'Z') || ('a' ≤ c && c ≤ 'z') || c = '_' || c = '-'

/-- Whether a text has ended or goes on with a space, a tab or a break. -/
def atGap : List Char → Bool
  | [] => true
  | c :: _ => isPad c || isBreak c

/-- Whether a text goes on with one of the given characters. -/
def startsWithAny (marks : List Char) : List Char → Bool
  | [] => false
  | c :: _ => marks.contains c

/-- Whether a text that starts a line is a mark between documents. -/
def isDocumentMark : List Char → Bool
  | '-' :: '-' :: '-' :: rest => atGap rest
  | '.' :: '.' :: '.' :: rest => atGap rest
  | _ => false

end OperatorBundle.Yaml
