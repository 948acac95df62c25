import OperatorBundle.Number.Integer
import OperatorBundle.Text.Quoted

/-!
The environment of a build: variables that the pipeline sets, and how they are read.
-/

namespace OperatorBundle

open OperatorBundle.Text OperatorBundle.Number

/-- The values of the variables that are set. -/
abbrev Environment := String → Option String

/-- The environment of a list of variables; of two values for one name the last counts. -/
def Environment.ofList (assigned : List (String × String)) : Environment :=
  fun name => assigned.reverse.lookup name

/-- Why the inputs of a run cannot be had from its environment: a variable is not set, holds no
number of its range, or holds a time that has no date. -/
inductive InputError
  | missingVariable (name : String)
  | invalidNumber (name value : String) (fault : NumeralFault)
  | invalidTimestamp (seconds : Int)
  deriving DecidableEq, Repr

/-- The error in words. -/
def InputError.message : InputError → String
  | .missingVariable name => "Required environment variable " ++ name ++ " is not set"
  | .invalidNumber name value _ =>
    "Environment variable " ++ name ++ "=" ++ String.ofList (quoted value.toList) ++
      " is not a valid integer"
  | .invalidTimestamp seconds =>
    "EPOC_TIMESTAMP " ++ String.ofList (decimalInt seconds) ++
      " is outside the supported date range"

/-- The error in words, and what caused it. -/
def InputError.chain (error : InputError) : List String :=
  match error with
  | .invalidNumber _ _ fault => [error.message, fault.message]
  | _ => [error.message]

namespace Environment

/-- The value of a variable that must be set. -/
def required (env : Environment) (name : String) : Except InputError String :=
  match env name with
  | some value => .ok value
  | none => .error (.missingVariable name)

/-- The number in a variable that must be set. -/
def requiredNumber (env : Environment) (name : String) : Except InputError Nat := do
  let value ← env.required name
  match readUnsigned32 value with
  | .ok n => .ok n
  | .error fault => .error (.invalidNumber name value fault)

/-- The number in a variable that may be set. -/
def optionalNumber (env : Environment) (name : String) : Except InputError (Option Int) :=
  match env name with
  | some value =>
    match readSigned64 value with
    | .ok n => .ok (some n)
    | .error fault => .error (.invalidNumber name value fault)
  | none => .ok none

end Environment

end OperatorBundle
