import OperatorBundle.Files.Plan
import OperatorBundle.Manifest

/-!
Manifests in files.
-/

namespace OperatorBundle

/-- Why a manifest cannot be loaded from a file or stored in one. -/
inductive ManifestError
  | notFound (path : String)
  | unreadable (path : String) (fault : FileFault)
  | malformed (path : String) (fault : Yaml.Fault)
  | unwritable (fault : Yaml.WriteFault)
  | notWritten (path : String) (fault : FileFault)
  deriving DecidableEq, Repr

namespace ManifestError

/-- What caused the error, in words. -/
def cause? : ManifestError → Option String
  | .notFound _ => none
  | .unreadable _ fault => some fault.message
  | .malformed _ fault => some fault.message
  | .unwritable fault => some fault.message
  | .notWritten _ fault => some fault.message

/-- The error in words. -/
def message (error : ManifestError) : String :=
  let cause := error.cause?.getD ""
  match error with
  | .notFound path => "File can not be found: " ++ path
  | .unreadable path _ => "Failed to read " ++ path ++ ": " ++ cause
  | .malformed path _ => "Failed to parse " ++ path ++ ": " ++ cause
  | .unwritable _ => "Failed to serialize manifest: " ++ cause
  | .notWritten path _ => "Failed to write " ++ path ++ ": " ++ cause

/-- The error in words, and what caused it. -/
def chain (error : ManifestError) : List String := error.message :: error.cause?.toList

/-- The exit status for a file that cannot be read as a manifest. -/
def unreadableStatus : Nat := 2

/-- The exit status of a run that ends with the error. -/
def exitStatus : ManifestError → Nat
  | .notFound _ | .unreadable _ _ | .malformed _ _ => unreadableStatus
  | .unwritable _ | .notWritten _ _ => 1

end ManifestError

namespace Manifest

/-- The manifest in what a file was found to hold. -/
def ofFile (path : String) : Except FileFault String → Except ManifestError Manifest
  | .ok text =>
    match ofYaml text with
    | .ok manifest => .ok manifest
    | .error fault => .error (.malformed path fault)
  | .error .notFound => .error (.notFound path)
  | .error fault => .error (.unreadable path fault)

/-- The text of a manifest for a file. -/
def fileText (manifest : Manifest) : Except ManifestError String :=
  match manifest.toYaml with
  | .ok text => .ok text
  | .error fault => .error (.unwritable fault)

/-- Loads a manifest; a path that names none is not read. -/
def load (path : String) : Plan (Except ManifestError (Option Manifest)) :=
  if isManifestPath path then
    .read path fun content => .done ((ofFile path content).map some)
  else .done (.ok none)

/-- Stores a text in a file. -/
def storeText (path text : String) : Plan (Except ManifestError Unit) :=
  .write path text fun written =>
    match written with
    | .ok _ => .done (.ok ())
    | .error fault => .done (.error (.notWritten path fault))

/-- Stores a manifest. Its text is complete before the file is touched. -/
def store (path : String) (manifest : Manifest) : Plan (Except ManifestError Unit) :=
  match manifest.fileText with
  | .ok text => storeText path text
  | .error error => .done (.error error)

end Manifest

end OperatorBundle
