import OperatorBundle.Yaml.Scalar.Plain
import OperatorBundle.Yaml.Scalar.Quoted
import OperatorBundle.Yaml.Scalar.Block
import OperatorBundle.Yaml.Token.Tag

/-!
From a YAML text to its tokens. A block collection opens where a line is indented deeper than the
collection around it, and closes where a line is indented less. A key without a mark is known only
by the colon after it, so the lexer remembers where one may have started and puts the key token
there when the colon comes; such a key stays on one line and within a limit of bytes. Columns count
characters.
-/

namespace OperatorBundle.Yaml

/-- A place in a text: what follows it, the bytes before it, and its line and column. -/
structure Cursor where
  rest : List Char
  offset : Nat
  line : Nat
  column : Nat

namespace Cursor

/-- The place after one more character. -/
def step (cursor : Cursor) : Cursor :=
  match cursor.rest with
  | [] => cursor
  | c :: rest =>
    let offset := cursor.offset + c.utf8Size
    if isBreak c then ⟨rest, offset, cursor.line + 1, 0⟩
    else ⟨rest, offset, cursor.line, cursor.column + 1⟩

/-- The place after some more characters. -/
def advance : Nat → Cursor → Cursor
  | 0, cursor => cursor
  | n + 1, cursor => advance n cursor.step

end Cursor

/-- A place where a key without a mark may have started: the number of the token there, whether the
text is malformed unless it is a key, and the place. -/
structure KeyCandidate where
  token : Nat
  required : Bool
  offset : Nat
  line : Nat
  column : Nat

/-- What the lexer knows between two tokens: the tokens so far, latest first, and their number; the
column of the innermost block collection and of those around it; the key candidate of the innermost
flow collection and of those around it; and whether a key without a mark may start here. -/
structure Lexer where
  cursor : Cursor
  tokens : List Token
  count : Nat
  indent : Int
  outerIndents : List Int
  candidate : Option KeyCandidate
  outerCandidates : List (Option KeyCandidate)
  keyAllowed : Bool

namespace Lexer

/-- The lexer at the start of a text. -/
def start (cs : List Char) : Lexer :=
  ⟨⟨cs, 0, 0, 0⟩, [], 0, -1, [], none, [], true⟩

/-- Whether the lexer is inside a flow collection. -/
def inFlow (lx : Lexer) : Bool := !lx.outerCandidates.isEmpty

/-- A token is added. -/
def push (lx : Lexer) (token : Token) : Lexer :=
  { lx with tokens := token :: lx.tokens, count := lx.count + 1 }

/-- A token is put before the token of the given number. -/
def insertAt (lx : Lexer) (number : Nat) (token : Token) : Lexer :=
  let later := lx.count - number
  { lx with
    tokens := lx.tokens.take later ++ token :: lx.tokens.drop later, count := lx.count + 1 }

/-- Some characters are taken. -/
def advance (lx : Lexer) (n : Nat) : Lexer := { lx with cursor := lx.cursor.advance n }

/-- A token that takes some characters is added. -/
def take (lx : Lexer) (n : Nat) (token : Token) : Lexer := (lx.push token).advance n

/-- Whether a key without a mark may start after this point. -/
def allowKey (lx : Lexer) (allowed : Bool) : Lexer := { lx with keyAllowed := allowed }

/-- The innermost key candidate is given up; a required one makes the text malformed. -/
def dropCandidate (lx : Lexer) : Except Fault Lexer :=
  match lx.candidate with
  | some candidate =>
    if candidate.required then .error .missingColon else .ok { lx with candidate := none }
  | none => .ok lx

/-- A key may have started here. -/
def saveCandidate (lx : Lexer) : Except Fault Lexer :=
  if lx.keyAllowed then do
    let lx ← lx.dropCandidate
    let place := lx.cursor
    .ok { lx with candidate := some {
      token := lx.count
      required := !lx.inFlow && lx.indent = place.column
      offset := place.offset
      line := place.line
      column := place.column } }
  else .ok lx

/-- The greatest number of bytes from the start of a key without a mark to its colon. -/
def keyLimit : Nat := 1024

/-- Whether a candidate is too far back for a colon at the cursor. -/
def isStale (cursor : Cursor) (candidate : KeyCandidate) : Bool :=
  candidate.line < cursor.line || candidate.offset + keyLimit < cursor.offset

/-- The candidates that are too far back are given up, at every level. -/
def dropStale (lx : Lexer) : Except Fault Lexer :=
  let stale (c : Option KeyCandidate) := c.any (isStale lx.cursor)
  let fresh (c : Option KeyCandidate) := c.filter fun k => !isStale lx.cursor k
  if (lx.candidate :: lx.outerCandidates).any fun c => stale c && c.any (·.required) then
    .error .missingColon
  else .ok { lx with
    candidate := fresh lx.candidate, outerCandidates := lx.outerCandidates.map fresh }

/-- A block collection opens at a column, unless one is open there: its token comes before the token
of the given number, or last. -/
def openBlock (lx : Lexer) (column : Nat) (number : Option Nat) (token : Token) : Lexer :=
  if !lx.inFlow && lx.indent < column then
    let lx := { lx with outerIndents := lx.indent :: lx.outerIndents, indent := column }
    match number with
    | some n => lx.insertAt n token
    | none => lx.push token
  else lx

/-- How many of the open indentations lie right of a column, and those that stay open. -/
def closing (column : Int) : Int → List Int → Nat × Int × List Int
  | indent, [] => (0, indent, [])
  | indent, outer :: more =>
    if column < indent then
      let (closed, rest) := closing column outer more
      (closed + 1, rest)
    else (0, indent, outer :: more)

/-- The block collections right of a column are closed. -/
def closeBlocks (lx : Lexer) (column : Int) : Lexer :=
  if lx.inFlow then lx
  else
    let (closed, indent, outer) := closing column lx.indent lx.outerIndents
    { lx with
      tokens := List.replicate closed .blockEnd ++ lx.tokens
      count := lx.count + closed
      indent := indent
      outerIndents := outer }

/-- The blanks, comments and breaks before the next token: their number, and whether a key without a
mark may start after them. A tab counts as a blank only where no key may start. -/
def blanks (inFlow : Bool) : List Char → Nat → Bool → Bool → Nat → Nat × Bool
  | [], _, allowed, _, used => (used, allowed)
  | c :: rest, column, allowed, inComment, used =>
    if isBreak c then blanks inFlow rest 0 (allowed || !inFlow) false (used + 1)
    else if inComment || c = '#' then blanks inFlow rest (column + 1) allowed true (used + 1)
    else if c = ' ' || (c = '\t' && (inFlow || !allowed)) || (c = '\ufeff' && column = 0) then
      blanks inFlow rest (column + 1) allowed false (used + 1)
    else (used, allowed)

/-- The lexer at the next token. -/
def skipBlanks (lx : Lexer) : Lexer :=
  let (used, allowed) := blanks lx.inFlow lx.cursor.rest lx.cursor.column lx.keyAllowed false 0
  (lx.advance used).allowKey allowed

/-! ### Tokens by kind -/

/-- A directive line. -/
def directiveLine (lx : Lexer) : Except Fault Lexer := do
  let lx ← (lx.closeBlocks (-1)).dropCandidate
  let text := lx.cursor.rest.drop 1
  let (token, after) ← directive text
  match restOfLine? after with
  | some rest => .ok ((lx.take (text.length + 1 - rest.length) token).allowKey false)
  | none => .error .directive

/-- A mark between documents. -/
def documentMark (lx : Lexer) (token : Token) : Except Fault Lexer := do
  let lx ← (lx.closeBlocks (-1)).dropCandidate
  .ok ((lx.take 3 token).allowKey false)

/-- An opening bracket or brace. -/
def openFlow (lx : Lexer) (token : Token) : Except Fault Lexer := do
  let lx ← lx.saveCandidate
  let lx := { lx with candidate := none, outerCandidates := lx.candidate :: lx.outerCandidates }
  .ok ((lx.take 1 token).allowKey true)

/-- A closing bracket or brace. -/
def closeFlow (lx : Lexer) (token : Token) : Except Fault Lexer := do
  let lx ← lx.dropCandidate
  let lx := match lx.outerCandidates with
    | candidate :: more => { lx with candidate := candidate, outerCandidates := more }
    | [] => lx
  .ok ((lx.take 1 token).allowKey false)

/-- A comma inside a flow collection. -/
def flowEntry (lx : Lexer) : Except Fault Lexer := do
  let lx ← lx.dropCandidate
  .ok ((lx.take 1 .flowEntry).allowKey true)

/-- A dash before an item of a block sequence. -/
def blockEntry (lx : Lexer) : Except Fault Lexer := do
  if !lx.inFlow && !lx.keyAllowed then .error .notAllowedHere
  else
    let lx ← (lx.openBlock lx.cursor.column none .blockSequenceStart).dropCandidate
    .ok ((lx.take 1 .blockEntry).allowKey true)

/-- A question mark before a key. -/
def keyMark (lx : Lexer) : Except Fault Lexer := do
  if !lx.inFlow && !lx.keyAllowed then .error .notAllowedHere
  else
    let lx ← (lx.openBlock lx.cursor.column none .blockMappingStart).dropCandidate
    .ok ((lx.take 1 .key).allowKey (!lx.inFlow))

/-- A colon after a key. The key candidate, if there is one, turns out to be a key. -/
def valueMark (lx : Lexer) : Except Fault Lexer :=
  match lx.candidate with
  | some candidate =>
    let lx := (lx.insertAt candidate.token .key).openBlock candidate.column (some candidate.token)
      .blockMappingStart
    .ok (({ lx with candidate := none }.take 1 .value).allowKey false)
  | none =>
    if !lx.inFlow && !lx.keyAllowed then .error .notAllowedHere
    else
      let lx := lx.openBlock lx.cursor.column none .blockMappingStart
      .ok ((lx.take 1 .value).allowKey (!lx.inFlow))

/-- An anchor or an alias. -/
def anchorOrAlias (lx : Lexer) (token : List Char → Token) : Except Fault Lexer := do
  let lx ← lx.saveCandidate
  let (name, used) ← anchorName (lx.cursor.rest.drop 1)
  .ok ((lx.take (used + 1) (token name)).allowKey false)

/-- A tag. -/
def tag (lx : Lexer) : Except Fault Lexer := do
  let lx ← lx.saveCandidate
  let (text, used) ← tagToken lx.inFlow lx.cursor.rest
  .ok ((lx.take used (.tag text)).allowKey false)

/-- A block scalar. -/
def block (lx : Lexer) (folds : Bool) : Except Fault Lexer := do
  let lx ← lx.dropCandidate
  let (text, used) ← blockScalar folds lx.indent (lx.cursor.rest.drop 1)
  .ok ((lx.take (used + 1) (.scalar text false)).allowKey true)

/-- A quoted scalar. -/
def quoted (lx : Lexer) (kind : Quote) : Except Fault Lexer := do
  let lx ← lx.saveCandidate
  let (text, used) ← quotedScalar kind (lx.cursor.column + 1) (lx.cursor.rest.drop 1)
  .ok ((lx.take (used + 1) (.scalar text false)).allowKey false)

/-- A plain scalar. A key may start after it if it ends its line. -/
def plain (lx : Lexer) : Except Fault Lexer := do
  let lx ← lx.saveCandidate
  let scalar ← plainScalar lx.inFlow (lx.indent + 1) lx.cursor.column lx.cursor.rest
  .ok ((lx.take scalar.used (.scalar scalar.text true)).allowKey scalar.broken)

/-- The characters that start a token of another kind and therefore no plain scalar. -/
def indicators : List Char :=
  ['-', '?', ':', ',', '[', ']', '\x7b', '\x7d', '#', '&', '*', '!', '|', '>', '\'', '"', '%', '@',
    '\x60']

/-- The token at the cursor, which stands on the given character. -/
def token (lx : Lexer) (c : Char) : Except Fault Lexer :=
  let after := lx.cursor.rest.drop 1
  let markEnds := lx.inFlow || atGap after
  if lx.cursor.column = 0 && c = '%' then lx.directiveLine
  else if lx.cursor.column = 0 && isDocumentMark lx.cursor.rest then
    lx.documentMark (if c = '-' then .documentStart else .documentEnd)
  else if c = '[' then lx.openFlow .flowSequenceStart
  else if c = '\x7b' then lx.openFlow .flowMappingStart
  else if c = ']' then lx.closeFlow .flowSequenceEnd
  else if c = '\x7d' then lx.closeFlow .flowMappingEnd
  else if c = ',' then lx.flowEntry
  else if c = '-' && atGap after then lx.blockEntry
  else if c = '?' && markEnds then lx.keyMark
  else if c = ':' && markEnds then lx.valueMark
  else if c = '*' then lx.anchorOrAlias .alias
  else if c = '&' then lx.anchorOrAlias .anchor
  else if c = '!' then lx.tag
  else if c = '|' && !lx.inFlow then lx.block false
  else if c = '>' && !lx.inFlow then lx.block true
  else if c = '\'' then lx.quoted .single
  else if c = '"' then lx.quoted .double
  else if !indicators.contains c || c = '-' || c = '?' || c = ':' then
    if isPad c then .error .tab else lx.plain
  else .error .character

/-- The end of the text closes every block collection. -/
def finish (lx : Lexer) : Except Fault Lexer := (lx.closeBlocks (-1)).dropCandidate

/-- The tokens up to the end of the text. Each token takes a character, so more steps than there are
characters are never needed. -/
def run : Nat → Lexer → Except Fault Lexer
  | 0, lx => .ok lx
  | fuel + 1, lx => do
    let lx ← lx.skipBlanks.dropStale
    let lx := lx.closeBlocks lx.cursor.column
    match lx.cursor.rest with
    | [] => lx.finish
    | c :: _ => run fuel (← lx.token c)

end Lexer

/-- The tokens of a text. -/
def tokens (text : List Char) : Except Fault (List Token) := do
  if text.all isAllowed then
    let cs := normaliseBreaks text
    let lx ← (Lexer.start cs).run (cs.length + 1)
    .ok lx.tokens.reverse
  else .error .character

end OperatorBundle.Yaml
