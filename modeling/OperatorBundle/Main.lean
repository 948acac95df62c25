import OperatorBundle.CommandLine.Run

/-!
The program on a machine: plans are carried out on its files, the environment is that of the
process, and what the program says goes to the standard streams.
-/

namespace OperatorBundle

/-- The number of a system error, which may be held as its negative. -/
def errorNumber (error : IO.Error) : Nat :=
  let code := match error with
    | .noFileOrDirectory _ code _ => code
    | .inappropriateType _ code _ => code
    | .invalidArgument _ code _ => code
    | _ => 0
  min code.toNat (UInt32.size - code.toNat)

/-- The fault of a file that a system error tells of. -/
def FileFault.ofError (error : IO.Error) : FileFault :=
  match errorNumber error with
  | 2 => .notFound
  | 20 => .notAFolder
  | 21 => .isFolder
  | 22 => .zeroCharacter
  | 36 => .nameTooLong
  | _ => .other (toString error)

/-- The text of a file. -/
def readText (path : String) : IO (Except FileFault String) := do
  try
    let content ← IO.FS.readBinFile path
    return match String.fromUTF8? content with
      | some text => .ok text
      | none => .error .notText
  catch error => return .error (.ofError error)

/-- Writes a text to a file. -/
def writeText (path text : String) : IO (Except FileFault Unit) := do
  try
    IO.FS.writeFile path text
    return .ok ()
  catch error => return .error (.ofError error)

/-- Carries a plan out on the files of the machine. -/
def Plan.perform {α : Type} : Plan α → IO α
  | .done result => return result
  | .read path next => do (next (← readText path)).perform
  | .write path text next => do (next (← writeText path text)).perform

/-- The variables that the commands read. -/
def programVariables : List String :=
  releaseVariables ++ ["EPOC_TIMESTAMP", "TARGET_METADATA_ANNOTATIONS_FILE"]

/-- The environment of the process. -/
def processEnvironment : IO Environment := do
  let assigned ← programVariables.mapM fun name => return (name, ← IO.getEnv name)
  return fun name => (assigned.lookup name).join

end OperatorBundle

open OperatorBundle OperatorBundle.CommandLine

/-- Runs the program with the arguments of the process. -/
def main (arguments : List String) : IO UInt32 := do
  let exit ← (program arguments (← processEnvironment)).perform
  IO.print exit.output
  if parse arguments matches .error .usage then IO.eprint usageText
  for message in exit.error do IO.eprintln message
  return exit.status.toUInt32
