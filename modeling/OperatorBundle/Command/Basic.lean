import OperatorBundle.Build.Inputs
import OperatorBundle.Manifest.Storage
import OperatorBundle.Settings

/-!
The two commands, the options they share, and how they end.
-/

namespace OperatorBundle

/-- What a run patches: the service version of a bundle, or its annotations. -/
inductive Command
  | serviceVersion
  | annotations
  deriving DecidableEq, Repr

/-- The word for a command. -/
def Command.word : Command → String
  | .serviceVersion => "csv"
  | .annotations => "metadata"

/-- The command for a word. -/
def Command.ofWord? (word : String) : Option Command :=
  [Command.serviceVersion, .annotations].find? fun c => c.word = word

/-- How a run reports: in a few lines, or as JSON. -/
inductive Format
  | summary
  | json
  deriving DecidableEq, Repr

/-- The options of a run. -/
structure Options where
  settings : Settings
  /-- A policy that takes the place of the one in the settings. -/
  override : Option Policy
  /-- Whether the patched document is printed and not stored. -/
  dryRun : Bool
  format : Format

/-- The policy in force. -/
def Options.policy (options : Options) : Policy := options.override.getD options.settings.onMissing

/-- Why a run fails: its inputs, the patch that they ask for, the manifest's file, or the patch on
the manifest. -/
inductive CommandError
  | inputs (command : Command) (error : InputError)
  | patchSet (error : InputError)
  | manifest (error : ManifestError)
  | patch (target : String) (error : PatchError)
  deriving DecidableEq, Repr

namespace CommandError

/-- What is said first about malformed inputs. -/
def inputContext : Command → String
  | .serviceVersion => "Invalid CSV build environment"
  | .annotations => "Invalid metadata build environment"

/-- The error in words, from the outermost message to the cause. -/
def chain : CommandError → List String
  | .inputs command error => inputContext command :: error.chain
  | .patchSet error => error.chain
  | .manifest error => error.chain
  | .patch target error => ["Failed to patch " ++ target, error.message]

/-- The exit status of a run that ends with the error. -/
def exitStatus : CommandError → Nat
  | .manifest error => error.exitStatus
  | _ => 1

end CommandError

/-- What a run did with its target: it patched it, or left it alone since its name is not that of a
manifest. -/
inductive Status
  | patched (report : Report)
  | notApplicable

/-- How a run ends, and what it prints. -/
structure Finish where
  status : Except CommandError Status
  output : String

/-- A run that fails prints nothing. -/
def Finish.failed (error : CommandError) : Finish := ⟨.error error, ""⟩

end OperatorBundle
