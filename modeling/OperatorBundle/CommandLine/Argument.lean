import OperatorBundle.Command.Basic
import OperatorBundle.Text.Search

/-!
The arguments of the program, one by one:

* `--name` and `--name=value`, an option by its long name;
* `-abc`, a cluster of options by their letters, where the rest of the cluster after an option that
  takes a value is that value, with or without an equals sign;
* `--`, after which no argument is an option;
* any other text, a word. A dash alone is a word.
-/

namespace OperatorBundle.CommandLine

open OperatorBundle.Text

/-- An option that takes no value. -/
inductive Flag
  | verbose
  | strict
  | dryRun
  | json
  | help
  | version
  deriving DecidableEq, Repr

/-- An option that takes a value. -/
inductive Field
  | config
  | onMissing
  deriving DecidableEq, Repr

/-- What a name or letter stands for. -/
inductive Switch
  | flag (flag : Flag)
  | field (field : Field)
  deriving DecidableEq, Repr

/-- The options by their long names. -/
def longNames : List (String × Switch) :=
  [("verbose", .flag .verbose), ("config", .field .config), ("strict", .flag .strict),
    ("on-missing", .field .onMissing), ("dry-run", .flag .dryRun), ("json", .flag .json),
    ("help", .flag .help), ("version", .flag .version)]

/-- The options by their letters. -/
def letters : List (Char × Switch) :=
  [('v', .flag .verbose), ('c', .field .config), ('h', .flag .help), ('V', .flag .version)]

/-- An argument by its form. -/
inductive Argument
  | terminator
  | long (name : String) (value : Option String)
  | cluster (letters : List Char)
  | word (text : String)
  deriving DecidableEq, Repr

namespace Argument

/-- A long name and the value after its first equals sign. -/
def ofLong (cs : List Char) : Argument :=
  let value := match cs.dropWhile (· ≠ '=') with
    | [] => none
    | _ :: value => some (String.ofList value)
  .long (String.ofList (cs.takeWhile (· ≠ '='))) value

/-- The form of an argument. -/
def ofText (text : String) : Argument :=
  match text.toList with
  | ['-', '-'] => .terminator
  | '-' :: '-' :: cs => ofLong cs
  | '-' :: c :: cs => .cluster (c :: cs)
  | _ => .word text

/-- The text of an argument that is a word. -/
def word? : Argument → Option String
  | .word text => some text
  | _ => none

end Argument

end OperatorBundle.CommandLine
