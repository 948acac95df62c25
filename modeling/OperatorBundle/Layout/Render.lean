import OperatorBundle.Layout.Chunk
import OperatorBundle.Layout.Fresh
import OperatorBundle.Yaml.Document

/-!
A changed document in the layout of its source. The lines of entries and items that did not change
are kept as they are; a changed one is looked into if its value is a block collection on lines of
its own, and written anew otherwise. Where the source is not laid out in blocks there is no
rendering.
-/

namespace OperatorBundle.Layout

open OperatorBundle.Text

/-- Parts one after the other, each starting on a line of its own; empty parts do not count. -/
def onOwnLines : List (List Char) → List Char
  | [] => []
  | part :: more =>
    let rest := onOwnLines more
    if part.isEmpty || rest.isEmpty || part.getLast? = some '\n' then part ++ rest
    else part ++ '\n' :: rest

/-- The chunks of a mapping with their keys, each as the tree that it reads as. -/
def keyed? (indent : Nat) (chunks : List Chunk) : Option (List (Tree × Chunk)) :=
  chunks.mapM fun chunk => do
    let (key, _) ← splitKey? (textFrom indent chunk.first)
    some (← (Tree.ofYaml (String.ofList key)).toOption, chunk)

/-- Whether the value of an entry starts on the line after its key. -/
def valueIsBelow (indent : Nat) (first : Line) : Bool :=
  match splitKey? (textFrom indent first) with
  | some (_, rest) =>
    match trim rest with
    | [] => true
    | c :: _ => c = '#'
  | none => false

/-- The lines of an item with its dash blanked, so that they are those of its value. -/
def blankDash (indent : Nat) (chunk : Chunk) : List Line :=
  chunk.first.set indent ' ' :: chunk.nested

/-- A rendered value with the dash of its item put back. -/
def restoreDash? (indent : Nat) (text : List Char) : Option (List Char) :=
  if text[indent]? = some ' ' then some (text.set indent '-') else none

mutual
/-- The lines of a block rendered for a changed tree. -/
def renderBlock? (source : List Line) (old : Tree) : Tree → Option (List Char)
  | .mapping entries =>
    if old.same (.mapping entries) then some source.flatten
    else
      let lead := source.takeWhile isBlankOrComment
      match old, source.dropWhile isBlankOrComment with
      | .mapping before, first :: more => do
        let indent := indentation first
        let text := textFrom indent first
        -- an empty mapping has no block form
        if isItem text || (splitKey? text).isNone || entries.isEmpty then none
        else
          let chunks ← keyed? indent (← chunks? .mapping indent (first :: more))
          let parts ← renderEntries? indent before chunks entries
          some (onOwnLines (lead.flatten :: parts))
      | _, _ => none
  | .sequence items =>
    if old.same (.sequence items) then some source.flatten
    else
      let lead := source.takeWhile isBlankOrComment
      match old, source.dropWhile isBlankOrComment with
      | .sequence before, first :: more => do
        let indent := indentation first
        -- items have no keys to be found by, so only a list of the same length is laid out
        if !isItem (textFrom indent first) || before.length ≠ items.length || items.isEmpty then
          none
        else
          let chunks ← chunks? .sequence indent (first :: more)
          if chunks.length ≠ before.length then none
          else
            let parts ← renderItems? indent before chunks items
            some (onOwnLines (lead.flatten :: parts))
      | _, _ => none
  | new => if old.same new then some source.flatten else none

/-- The parts of a rendered mapping: for each entry its lines, and those that follow it. -/
def renderEntries? (indent : Nat) (before : List Entry) (chunks : List (Tree × Chunk)) :
    List (Tree × Tree) → Option (List (List Char))
  | [] => some []
  | (key, value) :: more =>
    match chunks.find? fun c => c.1.same key, Tree.lookupSame? key before with
    | some (_, chunk), some old => do
      let node ←
        if old.same value then some chunk.body.flatten
        else
          let nested :=
            if valueIsBelow indent chunk.first then renderBlock? chunk.nested old value else none
          match nested with
          | some text => some (chunk.first ++ text)
          | none => freshEntryText? indent key value
      let parts ← renderEntries? indent before chunks more
      some (node :: chunk.trailer.flatten :: parts)
    | _, _ => do
      let node ← freshEntryText? indent key value
      let parts ← renderEntries? indent before chunks more
      some (node :: parts)

/-- The parts of a rendered sequence: for each item its lines, and those that follow it. -/
def renderItems? (indent : Nat) : List Tree → List Chunk → List Tree →
    Option (List (List Char))
  | old :: olds, chunk :: chunks, value :: more => do
    let node ←
      if old.same value then some chunk.body.flatten
      else
        match (renderBlock? (blankDash indent chunk) old value).bind (restoreDash? indent) with
        | some text => some text
        | none => freshItemText? indent value
    let parts ← renderItems? indent olds chunks more
    some (node :: chunk.trailer.flatten :: parts)
  | _, _, _ => some []
end

end OperatorBundle.Layout

namespace OperatorBundle

/-- A changed document in the layout of the text that the old one was read from; `none` if the root
cannot be laid out so. -/
def renderLayout? (source : String) (old new : Tree) : Option String :=
  (Layout.renderBlock? (Text.lines source.toList) old new).map String.ofList

end OperatorBundle
