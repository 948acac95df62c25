import OperatorBundle.Files.Plan
import OperatorBundle.Settings

/-!
Settings in files.
-/

namespace OperatorBundle

/-- Why a settings file cannot be used: it cannot be read, or its text gives no settings. -/
inductive SettingsError
  | unreadable (path : String) (fault : FileFault)
  | malformed (path : String)
  deriving DecidableEq, Repr

namespace SettingsError

/-- What caused the error, in words. -/
def cause : SettingsError → String
  | .unreadable _ fault => fault.message
  | .malformed _ => "TOML parse error"

/-- The error in words. -/
def message (error : SettingsError) : String :=
  match error with
  | .unreadable path _ => "Failed to read settings from " ++ path ++ ": " ++ error.cause
  | .malformed path => "Failed to parse settings from " ++ path ++ ": " ++ error.cause

/-- The error in words, and what caused it. -/
def chain (error : SettingsError) : List String := [error.message, error.cause]

end SettingsError

namespace Settings

/-- The settings in what a file was found to hold. -/
def ofFile (path : String) : Except FileFault String → Except SettingsError Settings
  | .ok text =>
    match ofText? text with
    | some settings => .ok settings
    | none => .error (.malformed path)
  | .error fault => .error (.unreadable path fault)

/-- Loads the settings: those of a file, or the standard ones if none is named. -/
def load (path : Option String) : Plan (Except SettingsError Settings) :=
  match path with
  | some path => .read path fun content => .done (ofFile path content)
  | none => .done (.ok standard)

end Settings

end OperatorBundle
