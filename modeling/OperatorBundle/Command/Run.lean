import OperatorBundle.Bundle.Annotations
import OperatorBundle.Bundle.ServiceVersion
import OperatorBundle.Command.Output

/-!
Running a command: its inputs come from the environment, the patch from the inputs and settings,
and the manifest from a file, which takes the patched document back. Nothing is written unless all
before it succeeds, and nothing is printed unless the run succeeds.
-/

namespace OperatorBundle

open OperatorBundle.Bundle

/-- The target of a command and the operations on it. -/
def Command.job (command : Command) (env : Environment) (settings : Settings) :
    Except CommandError (String × List Operation) :=
  match command with
  | .serviceVersion =>
    match ReleaseInputs.ofEnvironment env with
    | .error error => .error (.inputs command error)
    | .ok inputs =>
      match serviceVersionPatch inputs settings with
      | .error error => .error (.patchSet error)
      | .ok operations => .ok (inputs.targetFile, operations)
  | .annotations =>
    match AnnotationInputs.ofEnvironment env with
    | .error error => .error (.inputs command error)
    | .ok inputs => .ok (inputs.targetFile, annotationsPatch settings)

/-- The patched document of a manifest and the report of the patch. -/
def patchedText (policy : Policy) (target : String) (operations : List Operation)
    (manifest : Manifest) : Except CommandError (Report × String) :=
  match manifest.patch policy operations with
  | (_, .error error) => .error (.patch target error)
  | (patched, .ok report) =>
    match patched.fileText with
    | .error error => .error (.manifest error)
    | .ok text => .ok (report, text)

/-- A run that patched its target. -/
def Finish.patched (options : Options) (target : String) (report : Report)
    (document : Option String) : Finish :=
  ⟨.ok (.patched report), outputText options.format target report document⟩

/-- The end of a run whose patch has succeeded: a dry run prints the document, any other stores
it. -/
def deliver (options : Options) (target : String) (report : Report) (text : String) : Plan Finish :=
  if options.dryRun then .done (.patched options target report (some text))
  else do
    match ← Manifest.storeText target text with
    | .ok _ => return .patched options target report none
    | .error error => return .failed (.manifest error)

/-- The plan of a run on a target. -/
def patchFile (options : Options) (target : String) (operations : List Operation) :
    Plan Finish := do
  match ← Manifest.load target with
  | .error error => return .failed (.manifest error)
  | .ok none => return ⟨.ok .notApplicable, ""⟩
  | .ok (some manifest) =>
    match patchedText options.policy target operations manifest with
    | .error error => return .failed error
    | .ok (report, text) => deliver options target report text

/-- The plan of a command. -/
def Command.plan (command : Command) (env : Environment) (options : Options) : Plan Finish :=
  match command.job env options.settings with
  | .error error => .done (.failed error)
  | .ok (target, operations) => patchFile options target operations

end OperatorBundle
