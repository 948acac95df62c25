import OperatorBundle.CommandLine.Argument

/-!
What the arguments ask for. Options may stand before the command and after it, which are two levels:
an option counts once on each, and a value given after the command takes the place of one given
before it. Arguments are read from left to right, so that a request for help or for the version is
met only if nothing before it on its level is wrong; a value that is an argument of its own is
looked at when the next option of its level comes, or at the end.
-/

namespace OperatorBundle.CommandLine

/-- Why no command is run: the arguments are malformed, or ask for help or for the version. -/
inductive Ending
  | usage
  | help
  | version
  deriving DecidableEq, Repr

/-- The exit status of a program that runs no command. -/
def Ending.exitStatus : Ending → Nat
  | .usage => 1
  | .help => 0
  | .version => 0

/-- What the options of one level say. -/
structure Choices where
  config : Option String
  strict : Bool
  onMissing : Option Policy
  dryRun : Bool
  json : Bool
  deriving DecidableEq, Repr

/-- What is asked for: a command, the settings file, and the options of the run. -/
structure Invocation where
  command : Command
  config : Option String
  override : Option Policy
  dryRun : Bool
  format : Format
  deriving DecidableEq, Repr

namespace Choices

/-- What no options say. -/
def empty : Choices := ⟨none, false, none, false, false⟩

/-- The choices with the value of an option; a second value and a malformed one are refused. -/
def assign (choices : Choices) (field : Field) (value : String) : Except Ending Choices :=
  match field with
  | .config =>
    if choices.config.isSome || value.isEmpty then .error .usage
    else .ok { choices with config := some value }
  | .onMissing =>
    match choices.onMissing, Policy.ofWord value with
    | none, .ok policy => .ok { choices with onMissing := some policy }
    | _, _ => .error .usage

/-- The choices with a flag. Only the flag for more messages may be repeated, and the version is
told only before the command. -/
def raise (choices : Choices) (beforeCommand : Bool) : Flag → Except Ending Choices
  | .verbose => .ok choices
  | .strict => if choices.strict then .error .usage else .ok { choices with strict := true }
  | .dryRun => if choices.dryRun then .error .usage else .ok { choices with dryRun := true }
  | .json => if choices.json then .error .usage else .ok { choices with json := true }
  | .help => .error .help
  | .version => .error (if beforeCommand then .version else .usage)

/-- The choices of a level, unless two of them contradict each other. -/
def consistent (choices : Choices) : Except Ending Choices :=
  if choices.strict && choices.onMissing.isSome then .error .usage else .ok choices

/-- The choices of two levels, of which the second counts for more. -/
def merge (first second : Choices) : Choices where
  config := second.config.or first.config
  strict := first.strict || second.strict
  onMissing := second.onMissing.or first.onMissing
  dryRun := first.dryRun || second.dryRun
  json := first.json || second.json

/-- The invocation of a command. A policy by name counts for more than the flag. -/
def invocation (choices : Choices) (command : Command) : Invocation where
  command := command
  config := choices.config
  override := choices.onMissing.or (if choices.strict then some .fail else none)
  dryRun := choices.dryRun
  format := if choices.json then .json else .summary

end Choices

/-- The state of a level: its choices, and a value that is still to be looked at. -/
structure Level where
  choices : Choices
  pending : Option (Field × String)
  deriving DecidableEq, Repr

namespace Level

/-- The start of a level. -/
def start : Level := ⟨.empty, none⟩

/-- The choices after the value that was still to be looked at. -/
def settle (level : Level) : Except Ending Choices :=
  match level.pending with
  | some (field, value) => level.choices.assign field value
  | none => .ok level.choices

/-- The level after a flag. -/
def flag (level : Level) (beforeCommand : Bool) (flag : Flag) : Except Ending Level := do
  return ⟨← (← level.settle).raise beforeCommand flag, none⟩

/-- The level after an option with its value in the same argument. -/
def attach (level : Level) (field : Field) (value : String) : Except Ending Level := do
  return ⟨← (← level.settle).assign field value, none⟩

/-- The level after an option whose value is the next argument. -/
def await (level : Level) (field : Field) (value : String) : Except Ending Level := do
  return ⟨← level.settle, some (field, value)⟩

/-- The choices at the end of a level. -/
def finish (level : Level) : Except Ending Choices := do (← level.settle).consistent

/-- The level after a cluster of letters, and the option that is left without a value. -/
def cluster (beforeCommand : Bool) : List Char → Level → Except Ending (Level × Option Field)
  | [], level => .ok (level, none)
  | c :: rest, level =>
    match letters.lookup c, rest with
    | some (.flag flag), _ => do cluster beforeCommand rest (← level.flag beforeCommand flag)
    | some (.field field), [] => .ok (level, some field)
    | some (.field field), '=' :: value => do
      return (← level.attach field (String.ofList value), none)
    | some (.field field), value => do return (← level.attach field (String.ofList value), none)
    | none, _ => .error .usage

/-- The level after an option by its long name, and the option if it is left without a value. -/
def long (beforeCommand : Bool) (name : String) (value : Option String) (level : Level) :
    Except Ending (Level × Option Field) :=
  match longNames.lookup name, value with
  | some (.flag flag), none => do return (← level.flag beforeCommand flag, none)
  | some (.field field), some value => do return (← level.attach field value, none)
  | some (.field field), none => .ok (level, some field)
  | _, _ => .error .usage

/-- The level after an argument that is an option, and the option if it is left without a value. -/
def option (beforeCommand : Bool) (argument : Argument) (level : Level) :
    Except Ending (Level × Option Field) :=
  match argument with
  | .long name value => level.long beforeCommand name value
  | .cluster letters => level.cluster beforeCommand letters
  | _ => .error .usage

/-- The level after its options, and the arguments from the first word on that is no value. Nothing
may follow a terminator. -/
def read (beforeCommand : Bool) : List String → Level → Except Ending (Level × List String)
  | [], level => .ok (level, [])
  | text :: rest, level =>
    match Argument.ofText text with
    | .terminator => if rest.isEmpty then .ok (level, []) else .error .usage
    | .word _ => .ok (level, text :: rest)
    | argument => do
      let (level, awaiting) ← level.option beforeCommand argument
      match awaiting with
      | none => read beforeCommand rest level
      | some field =>
        match rest with
        | [] => .error .usage
        | next :: more =>
          match (Argument.ofText next).word? with
          | some value => do read beforeCommand more (← level.await field value)
          | none => .error .usage

end Level

/-- The word that asks for help. -/
def helpWord : String := "help"

/-- What follows a request for help: nothing, or one of the words that may start a command. -/
def helpOn : List String → Ending
  | [] => .help
  | [word] => if word = helpWord || (Command.ofWord? word).isSome then .help else .usage
  | _ => .usage

/-- The choices after the command, where no word may stand. -/
def choicesAfter (arguments : List String) : Except Ending Choices := do
  match ← Level.start.read false arguments with
  | (level, []) => level.finish
  | (_, _ :: _) => .error .usage

/-- What the arguments ask for. The options before the command are looked at once more after those
behind it. -/
def parse (arguments : List String) : Except Ending Invocation := do
  match ← Level.start.read true arguments with
  | (_, []) => .error .usage
  | (level, word :: rest) =>
    if word = helpWord then .error (helpOn rest)
    else match Command.ofWord? word with
      | none => .error .usage
      | some command => do
        let after ← choicesAfter rest
        let before ← level.finish
        return (before.merge after).invocation command

end OperatorBundle.CommandLine
