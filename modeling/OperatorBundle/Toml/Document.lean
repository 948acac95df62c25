import OperatorBundle.Toml.Number
import OperatorBundle.Toml.Text

/-!
Reading a TOML text. Keys and headers build the document as they come; a key that is there already,
a table opened twice, and nesting or keys beyond a fixed depth are refused.
-/

namespace OperatorBundle.Toml

/-- The greatest depth of nested values, and the greatest number of parts of a key. -/
def depthLimit : Nat := 80

/-- The parts of a key that is not too long: those before the last, the last, and what follows. -/
def key? (cs : List Char) : Option (List String × String × List Char) := do
  let (parts, rest) ← keyParts? depthLimit cs
  let last ← parts.getLast?
  if parts.length < depthLimit then some (parts.dropLast, last, rest) else none

/-- A value is put under a key with or without dots. -/
def addAt? (path : List String) (last : String) (value : Toml)
    (members : List (String × Toml)) : Option (List (String × Toml)) :=
  if path.isEmpty then add? last value members else addDotted? value last path members

mutual
/-- The value at the start of a text, `depth` levels of nesting being left, and what follows. -/
def value? : Nat → (depth : Nat) → List Char → Option (Toml × List Char)
  | 0, _, _ => none
  | fuel + 1, depth, cs =>
    match cs with
    | [] => none
    | c :: rest =>
      if c = '"' || c = '\'' then
        (string? cs).map fun (text, rest) => (.string (String.ofList text), rest)
      else if c = '[' then
        match depth with
        | 0 => none
        | depth + 1 => (items? fuel depth rest).map fun (items, rest) => (.array items, rest)
      else if c = '\x7b' then
        match depth with
        | 0 => none
        | depth + 1 =>
          (braced? fuel depth (skipBlanks rest)).map fun (members, rest) =>
            (.table .inline members, rest)
      else wordAt? cs

/-- The rest of a list after its opening bracket or a comma. -/
def items? : Nat → (depth : Nat) → List Char → Option (List Toml × List Char)
  | 0, _, _ => none
  | fuel + 1, depth, cs => do
    match ← skipLines? cs false with
    | ']' :: rest => some ([], rest)
    | start =>
      let (item, rest) ← value? fuel depth start
      match ← skipLines? rest false with
      | ',' :: more =>
        let (items, rest) ← items? fuel depth more
        some (item :: items, rest)
      | ']' :: rest => some ([item], rest)
      | _ => none

/-- The members between braces. -/
def braced? : Nat → (depth : Nat) → List Char → Option (List (String × Toml) × List Char)
  | 0, _, _ => none
  | fuel + 1, depth, cs =>
    match cs with
    | '\x7d' :: rest => some ([], rest)
    | _ => pairs? fuel depth cs []

/-- The rest of the members between braces, after some of them. -/
def pairs? : Nat → (depth : Nat) → List Char → List (String × Toml) →
    Option (List (String × Toml) × List Char)
  | 0, _, _, _ => none
  | fuel + 1, depth, cs, members => do
    let (path, last, rest) ← key? cs
    match rest with
    | '=' :: rest =>
      let (value, rest) ← value? fuel depth (skipBlanks rest)
      let members ← addAt? path last value members
      match skipBlanks rest with
      | ',' :: more => pairs? fuel depth (skipBlanks more) members
      | '\x7d' :: rest => some (members, rest)
      | _ => none
    | _ => none
end

/-- What follows the rest of a line, which may hold a comment only. -/
def endOfLine? (cs : List Char) : Option (List Char) := do
  match ← skipComment? (skipBlanks cs) with
  | [] => some []
  | '\n' :: rest => some rest
  | _ => none

/-- A document on the way: its members, and the path of the header that keys stand under. -/
structure Draft where
  members : List (String × Toml)
  header : List String

/-- A header is read after its opening brackets, of which there may be two. -/
def header? (double : Bool) (cs : List Char) (draft : Draft) : Option (Draft × List Char) := do
  let (path, last, rest) ← key? (skipBlanks cs)
  let rest ← match double, rest with
    | true, ']' :: ']' :: rest => some rest
    | false, ']' :: rest => some rest
    | _, _ => none
  let members ← underHeader? (if double then addTable? last else openTable? last) path draft.members
  some (⟨members, path ++ [last]⟩, ← endOfLine? rest)

/-- A key and its value are read. -/
def entry? (fuel : Nat) (cs : List Char) (draft : Draft) : Option (Draft × List Char) := do
  let (path, last, rest) ← key? cs
  match rest with
  | '=' :: rest =>
    let (value, rest) ← value? fuel (depthLimit - 1) (skipBlanks rest)
    let members ← underHeader? (addAt? path last value) draft.header draft.members
    some (⟨members, draft.header⟩, ← endOfLine? rest)
  | _ => none

/-- The rest of a document. Each line takes a character, so more steps than there are characters are
never needed. -/
def lines? : Nat → List Char → Draft → Option Draft
  | 0, _, _ => none
  | fuel + 1, cs, draft => do
    match ← skipLines? cs false with
    | [] => some draft
    | '[' :: '[' :: rest =>
      let (draft, rest) ← header? true rest draft
      lines? fuel rest draft
    | '[' :: rest =>
      let (draft, rest) ← header? false rest draft
      lines? fuel rest draft
    | start =>
      let (draft, rest) ← entry? fuel start draft
      lines? fuel rest draft

/-- The text with a line feed for each line end of two characters. -/
def normaliseLineEnds : List Char → List Char
  | '\r' :: '\n' :: rest => '\n' :: normaliseLineEnds rest
  | c :: rest => c :: normaliseLineEnds rest
  | [] => []

/-- A text without the mark of its byte order that it may start with. -/
def withoutByteOrderMark : List Char → List Char
  | '\ufeff' :: rest => rest
  | cs => cs

/-- The members of a TOML document. -/
def document? (text : String) : Option (List (String × Toml)) := do
  let cs := normaliseLineEnds (withoutByteOrderMark text.toList)
  let draft ← lines? (2 * cs.length + 4) cs ⟨[], []⟩
  some draft.members

end OperatorBundle.Toml
