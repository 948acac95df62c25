import OperatorBundle.Text.Digits
import OperatorBundle.Yaml.Charset
import OperatorBundle.Yaml.Fault

/-!
Block scalars: a header line and the indented lines below it, kept as they stand or folded. The
header may fix the indentation and says what happens to the breaks at the end.
-/

namespace OperatorBundle.Yaml

open OperatorBundle.Text

/-- What happens to the breaks at the end of a block scalar: none stays, the first stays, or all. -/
inductive Chomping
  | strip
  | clip
  | keep
  deriving DecidableEq

/-- The header of a block scalar; an increment of zero leaves the indentation to the text. -/
structure BlockHeader where
  chomping : Chomping
  increment : Nat

/-- The chomping that a character of the header asks for. -/
def chompingOf? : Char → Option Chomping
  | '+' => some .keep
  | '-' => some .strip
  | _ => none

/-- A chomping mark and an increment, in either order and each at most once, and the text after
them. An increment of zero is refused. -/
def blockMarks (cs : List Char) : Except Fault (BlockHeader × List Char) :=
  let refused (d : Char) := d = '0'
  match cs with
  | [] => .ok (⟨.clip, 0⟩, [])
  | c :: rest =>
    match chompingOf? c with
    | some chomping =>
      match rest with
      | d :: rest' =>
        if refused d then .error .blockHeader
        else if isDigit d then .ok (⟨chomping, d.toNat - '0'.toNat⟩, rest')
        else .ok (⟨chomping, 0⟩, rest)
      | [] => .ok (⟨chomping, 0⟩, rest)
    | none =>
      if refused c then .error .blockHeader
      else if isDigit c then
        let increment := c.toNat - '0'.toNat
        match rest with
        | d :: rest' =>
          match chompingOf? d with
          | some chomping => .ok (⟨chomping, increment⟩, rest')
          | none => .ok (⟨.clip, increment⟩, rest)
        | [] => .ok (⟨.clip, increment⟩, rest)
      else .ok (⟨.clip, 0⟩, cs)

/-- The rest of a line that may hold blanks and a comment only, with its break, and the text after
it; `none` if anything else stands on the line. -/
def restOfLine? (cs : List Char) : Option (List Char) :=
  let afterPads := cs.dropWhile isPad
  let afterComment := match afterPads with
    | '#' :: _ => afterPads.dropWhile fun c => !isBreak c
    | _ => afterPads
  match afterComment with
  | [] => some []
  | c :: rest => if isBreak c then some rest else none

/-- What has been read of a block scalar: its text and the breaks after its last line, latest first,
the break that ended that line, and whether the line started with a blank. -/
structure BlockText where
  text : List Char
  lineBreak : Option Char
  breaks : List Char
  padded : Bool

namespace BlockText

/-- Nothing read yet. -/
def empty : BlockText := ⟨[], none, [], false⟩

/-- The text with the break before a line that starts with `c`. In a folded scalar a line feed
between two lines that start with no blank is read as a space, or as nothing before empty lines. -/
def startLine (folds : Bool) (block : BlockText) (c : Char) : BlockText :=
  let join :=
    if folds && block.lineBreak = some '\n' && !block.padded && !isPad c then
      if block.breaks.isEmpty then [' '] else []
    else block.lineBreak.toList
  ⟨c :: (block.breaks ++ (join ++ block.text)), none, [], isPad c⟩

/-- The text as the chomping leaves it. -/
def finish (chomping : Chomping) (block : BlockText) : List Char :=
  match chomping with
  | .strip => block.text.reverse
  | .clip => (block.lineBreak.toList ++ block.text).reverse
  | .keep => (block.breaks ++ (block.lineBreak.toList ++ block.text)).reverse

end BlockText

/-- Where a reader of a block scalar stands: in the indentation while it is not known, with the
column and the greatest column seen; in the indentation; or in a line. -/
inductive BlockState
  | finding (column deepest : Nat)
  | indent (width column : Nat)
  | line (width : Nat)

/-- The lines of a block scalar and the number of characters they take. The indentation, where the
header leaves it open, is that of the deepest line up to the first that is not empty, and at least
`least`. -/
def blockLines (folds : Bool) (least : Nat) :
    List Char → BlockState → BlockText → Nat → Except Fault (BlockText × Nat)
  | [], _, block, used => .ok (block, used)
  | c :: rest, .finding column deepest, block, used =>
    let deepest := max deepest column
    if c = ' ' then blockLines folds least rest (.finding (column + 1) deepest) block (used + 1)
    else if c = '\t' then .error .tab
    else if isBreak c then
      blockLines folds least rest (.finding 0 deepest) { block with breaks := c :: block.breaks }
        (used + 1)
    else
      let width := max deepest least
      if column = width then
        blockLines folds least rest (.line width) (block.startLine folds c) (used + 1)
      else .ok (block, used)
  | c :: rest, .indent width column, block, used =>
    if column < width && c = ' ' then
      blockLines folds least rest (.indent width (column + 1)) block (used + 1)
    else if column < width && c = '\t' then .error .tab
    else if isBreak c then
      blockLines folds least rest (.indent width 0) { block with breaks := c :: block.breaks }
        (used + 1)
    else if column = width then
      blockLines folds least rest (.line width) (block.startLine folds c) (used + 1)
    else .ok (block, used)
  | c :: rest, .line width, block, used =>
    if isBreak c then
      blockLines folds least rest (.indent width 0) { block with lineBreak := some c } (used + 1)
    else blockLines folds least rest (.line width) { block with text := c :: block.text } (used + 1)

/-- The block scalar after its indicator, below a collection at the given indentation, and the
number of characters it takes. -/
def blockScalar (folds : Bool) (indent : Int) (cs : List Char) :
    Except Fault (List Char × Nat) := do
  let (header, afterMarks) ← blockMarks cs
  match restOfLine? afterMarks with
  | none => .error .blockHeader
  | some body =>
    let least := (max (indent + 1) 1).toNat
    let start := if header.increment = 0 then BlockState.finding 0 0
      else .indent ((max indent 0).toNat + header.increment) 0
    let (block, used) ← blockLines folds least body start .empty 0
    .ok (block.finish header.chomping, cs.length - body.length + used)

end OperatorBundle.Yaml
