import OperatorBundle.Number.Shortest
import OperatorBundle.Yaml.Writer.Nesting
import OperatorBundle.Yaml.Writer.Page

/-!
The written form of a tree. Collections are written as blocks, two columns deeper than the one
around them, except that a sequence under a key stands at the indentation of the key; empty
collections are written as brackets. A key stands before its colon if it is short and has one line,
and after a question mark otherwise.
-/

namespace OperatorBundle

open OperatorBundle.Yaml OperatorBundle.Text

namespace Yaml

/-- Where a node stands. -/
inductive Slot
  | root
  | item
  | shortKey
  | longKey
  | value
  deriving DecidableEq

/-- Whether a node stands in a mapping. -/
def Slot.inMapping : Slot → Bool
  | .root | .item => false
  | _ => true

/-- The text of a scalar and the style it asks for; collections have none. -/
def scalarForm? : Tree → Option (List Char × Style)
  | .null => some ("null".toList, .plain)
  | .bool b => some ((if b then "true" else "false").toList, .plain)
  | .int n => some (decimalInt n, .plain)
  | .float x => some (x.text, .plain)
  | .text s => some (s.toList, .ofText s.toList)
  | _ => none

/-- The number of bytes of a text. -/
def byteCount (cs : List Char) : Nat := cs.foldr (fun c count => c.utf8Size + count) 0

/-- The greatest number of bytes of a key before its colon. -/
def shortKeyLimit : Nat := 128

/-- The number of bytes that a tag adds to a key. -/
def tagSize (tag : Option String) : Nat := tag.elim 0 fun tag => byteCount (Page.markedTag tag)

/-- Whether a key can stand before its colon: a scalar of one line or an empty collection, short
enough with its tag. -/
def isShortKey (tag : Option String) : Tree → Bool
  | .tagged inner content => isShortKey (some inner) content
  | .sequence items => items.isEmpty && tagSize tag ≤ shortKeyLimit
  | .mapping entries => entries.isEmpty && tagSize tag ≤ shortKeyLimit
  | tree =>
    match scalarForm? tree with
    | some (cs, _) => !cs.any endsLine && tagSize tag + byteCount cs ≤ shortKeyLimit
    | none => false

/-- The indentation of what stands below a collection at an indentation. -/
def deeper (indent : Int) : Int := if indent < 0 then 0 else indent + 2

/-- The indentation of the further lines of a scalar. -/
def scalarIndent (indent : Int) : Int := if indent < 0 then 2 else indent + 2

/-- The tag of a node, if it has one. -/
def writeTag (tag : Option String) (page : Page) : Page := tag.elim page page.tag

mutual
/-- A node is written at an indentation, with the tag that stands before it. -/
def writeNode (indent : Int) (slot : Slot) (tag : Option String) : Tree → Page → Page
  | .tagged inner content, page => writeNode indent slot (some inner) content page
  | .sequence items, page =>
    let page := writeTag tag page
    if items.isEmpty then (page.withGap.puts ['[', ']']).afterWord
    else
      let inner := if 0 ≤ indent ∧ slot.inMapping ∧ !page.fresh then indent else deeper indent
      writeItems inner items page
  | .mapping entries, page =>
    let page := writeTag tag page
    if entries.isEmpty then (page.withGap.puts ['\x7b', '\x7d']).afterWord
    else writeEntries (deeper indent) entries page
  | tree, page =>
    match scalarForm? tree with
    | some (cs, style) =>
      (writeTag tag page).scalar (style.fit cs (slot = .shortKey)) (scalarIndent indent) cs
    | none => page

/-- The items of a sequence, each after a dash. -/
def writeItems (indent : Int) : List Tree → Page → Page
  | [], page => page
  | item :: more, page =>
    let page := (page.indentTo indent).mark ['-'] true
    writeItems indent more (writeNode indent .item none item page)

/-- The entries of a mapping. -/
def writeEntries (indent : Int) : List (Tree × Tree) → Page → Page
  | [], page => page
  | (key, value) :: more, page =>
    let page := page.indentTo indent
    let page :=
      if isShortKey none key then (writeNode indent .shortKey none key page).close [':']
      else
        let page := writeNode indent .longKey none key (page.mark ['?'] true)
        (page.indentTo indent).mark [':'] true
    writeEntries indent more (writeNode indent .value none value page)
end

end Yaml

/-- The written form of a tree. -/
def Tree.toYaml (tree : Tree) : Except WriteFault String :=
  match writeFault? tree with
  | some fault => .error fault
  | none =>
    .ok (String.ofList ((writeNode (-1) .root none tree .empty).indentTo 0).text.reverse)

end OperatorBundle
