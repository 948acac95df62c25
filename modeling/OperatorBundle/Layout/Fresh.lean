import OperatorBundle.Text.Lines
import OperatorBundle.Yaml.Writer

/-!
Entries and items written anew, at the indentation of the collection they stand in.
-/

namespace OperatorBundle.Layout

open OperatorBundle.Text

/-- A line behind some spaces; an empty line stays empty. -/
def indentLine (width : Nat) (line : Line) : List Char :=
  match line.filter (· ≠ '\n') with
  | [] => ['\n']
  | cs => spaces width ++ cs ++ ['\n']

/-- A text with its first line behind some spaces and its other lines behind others. -/
def shift (first others : Nat) (text : List Char) : List Char :=
  match lines text with
  | [] => []
  | line :: more => indentLine first line ++ more.flatMap (indentLine others)

/-- An entry written at an indentation. -/
def freshEntryText? (indent : Nat) (key value : Tree) : Option (List Char) :=
  match (Tree.mapping [(key, value)]).toYaml with
  | .ok text => some (shift indent indent text.toList)
  | .error _ => none

/-- An item written at an indentation. -/
def freshItemText? (indent : Nat) (value : Tree) : Option (List Char) :=
  match value.toYaml with
  | .ok text => some (spaces indent ++ ['-', ' '] ++ shift 0 (indent + 2) text.toList)
  | .error _ => none

end OperatorBundle.Layout
