import OperatorBundle.Layout.Key
import OperatorBundle.Text.Lines

/-!
Block collections as lines. A block mapping or sequence is cut into chunks, one for each entry or
item: its first line, the lines nested below it, and the blank and comment lines that trail it.
Nothing is lost: the chunks concatenate to the lines they were cut from.
-/

namespace OperatorBundle.Layout

open OperatorBundle.Text

/-- Whether a line holds nothing but blanks and a comment. -/
def isBlankOrComment (line : Line) : Bool :=
  match trimLeft (content line) with
  | [] => true
  | c :: _ => c = '#'

/-- Whether a line may trail a collection at an indentation: a blank line, or a comment that is not
indented deeper. -/
def isTrailer (indent : Nat) (line : Line) : Bool :=
  match trimLeft (content line) with
  | [] => true
  | c :: _ => c = '#' && indentation (content line) ≤ indent

/-- Whether a text starts an item of a block sequence. -/
def isItem : List Char → Bool
  | ['-'] => true
  | '-' :: ' ' :: _ => true
  | _ => false

/-- A line from a column on, without its end. -/
def textFrom (indent : Nat) (line : Line) : List Char := (content line).drop indent

/-- An entry or item: its first line, the lines nested below it, and the lines that trail it. -/
structure Chunk where
  first : Line
  nested : List Line
  trailer : List Line

namespace Chunk

/-- The lines of the entry or item itself. -/
def body (chunk : Chunk) : List Line := chunk.first :: chunk.nested

/-- All lines of the chunk. -/
def lines (chunk : Chunk) : List Line := chunk.body ++ chunk.trailer

/-- The chunk of a first line and the lines after it, of which the last ones trail it. -/
def ofLines (indent : Nat) (first : Line) (rest : List Line) : Chunk :=
  -- a comment in the middle of an entry is part of it, so trailing lines are counted from the end
  let trailing := (rest.reverse.takeWhile (isTrailer indent)).length
  ⟨first, rest.take (rest.length - trailing), rest.drop (rest.length - trailing)⟩

@[simp] theorem lines_ofLines (indent : Nat) (first : Line) (rest : List Line) :
    (ofLines indent first rest).lines = first :: rest := by
  simp [ofLines, lines, body]

end Chunk

/-- The two kinds of block collections. -/
inductive BlockKind
  | mapping
  | sequence
  deriving DecidableEq

/-- What a line does in a block collection. -/
inductive LineRole
  /-- It starts an entry or item. -/
  | starts
  /-- It belongs to the entry or item above it. -/
  | continues
  /-- It has no place in the collection. -/
  | foreign
  deriving DecidableEq

/-- The role of a line in a collection at an indentation. Items at the indentation of a mapping are
the value of the key above them. -/
def lineRole (kind : BlockKind) (indent : Nat) (line : Line) : LineRole :=
  if isBlankOrComment line then .continues
  else if indentation line < indent then .foreign
  else if indent < indentation line then .continues
  else match kind, isItem (textFrom indent line) with
    | .mapping, false => .starts
    | .mapping, true => .continues
    | .sequence, true => .starts
    | .sequence, false => .foreign

/-- The chunks of a collection, after the lines that belong to what stands above it. -/
def chunksAfter? (kind : BlockKind) (indent : Nat) :
    List Line → Option (List Line × List Chunk)
  | [] => some ([], [])
  | line :: more =>
    match chunksAfter? kind indent more, lineRole kind indent line with
    -- the lines read so far are behind this one: those that start nothing belong to it
    | some (loose, chunks), .starts => some ([], Chunk.ofLines indent line loose :: chunks)
    | some (loose, chunks), .continues => some (line :: loose, chunks)
    | _, _ => none

/-- The chunks of a collection whose first line starts an entry or item. -/
def chunks? (kind : BlockKind) (indent : Nat) (lines : List Line) : Option (List Chunk) :=
  (chunksAfter? kind indent lines).map (·.2)

/-- Nothing is lost between the chunks. -/
theorem append_flatMap_lines_of_chunksAfter? {kind : BlockKind} {indent : Nat}
    {lines loose : List Line} {chunks : List Chunk}
    (h : chunksAfter? kind indent lines = some (loose, chunks)) :
    loose ++ chunks.flatMap Chunk.lines = lines := by
  induction lines generalizing loose chunks with
  | nil => simp_all [chunksAfter?]
  | cons line more ih =>
    rw [chunksAfter?] at h
    cases hm : chunksAfter? kind indent more with
    | none => simp [hm] at h
    | some rest =>
      obtain ⟨loose', chunks'⟩ := rest
      have key := ih hm
      cases hr : lineRole kind indent line <;> simp [hm, hr] at h
      · obtain ⟨rfl, rfl⟩ := h
        simp [key]
      · obtain ⟨rfl, rfl⟩ := h
        simp [key]

end OperatorBundle.Layout
