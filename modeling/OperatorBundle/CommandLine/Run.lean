import OperatorBundle.Command.Run
import OperatorBundle.CommandLine.Parse
import OperatorBundle.Settings.Storage

/-!
The program: its arguments name a command, a settings file gives the settings, and the command runs
with the environment. It ends with an exit status, an output, and at most one error message.
-/

namespace OperatorBundle.CommandLine

/-- The name of the program. -/
def programName : String := "bundle-patcher"

/-- The version of the program. -/
def programVersion : String := "0.1.0"

/-- What the program says about itself. -/
def aboutText : String := "Patch OLM bundle manifests from build environment variables"

/-- How the program is called. -/
def usageText : String := "Usage: " ++ programName ++ " [OPTIONS] <COMMAND>\n"

/-- The lines on the commands and options. -/
def helpLines : List String := [
  "",
  "Commands:",
  "  csv       Patch the ClusterServiceVersion at $TARGET_CSV_FILE",
  "  metadata  Patch the bundle annotations at $TARGET_METADATA_ANNOTATIONS_FILE",
  "  help      Print this message or the help of the given subcommand(s)",
  "",
  "Options:",
  "  -v, --verbose...           Increase verbosity (-v, -vv, -vvv)",
  "  -c, --config <CONFIG>      Settings file (TOML) overriding operator name, channel, branding",
  "      --strict               Fail when a locator matches nothing instead of skipping it",
  "      --on-missing <POLICY>  What to do when a locator matches nothing: ignore, fail",
  "      --dry-run              Print the patched manifest instead of writing it",
  "      --json                 Print the patch report as JSON",
  "  -h, --help                 Print help",
  "  -V, --version              Print version"]

/-- The help. -/
def helpText : String :=
  aboutText ++ "\n\n" ++ usageText ++ String.join (helpLines.map fun line => line ++ "\n")

/-- How the program ends: its exit status, its output, and what it says about an error. -/
structure Exit where
  status : Nat
  output : String
  error : Option String
  deriving DecidableEq, Repr

/-- The end of a program that runs no command. -/
def Ending.exit (ending : Ending) : Exit :=
  let output := match ending with
    | .usage => ""
    | .help => helpText
    | .version => programName ++ " " ++ programVersion ++ "\n"
  ⟨ending.exitStatus, output, none⟩

/-- A chain of messages as one line. -/
def errorText (chain : List String) : String := "Error: " ++ String.intercalate ": " chain

/-- The end of a program whose settings cannot be had. -/
def settingsExit (error : SettingsError) : Exit := ⟨1, "", some (errorText error.chain)⟩

/-- The end of a program that has run its command. -/
def commandExit (finish : Finish) : Exit :=
  match finish.status with
  | .ok _ => ⟨0, finish.output, none⟩
  | .error error => ⟨error.exitStatus, finish.output, some (errorText error.chain)⟩

/-- The options of the run that is asked for. -/
def Invocation.options (invocation : Invocation) (settings : Settings) : Options where
  settings := settings
  override := invocation.override
  dryRun := invocation.dryRun
  format := invocation.format

/-- The plan of what is asked for. -/
def Invocation.plan (invocation : Invocation) (env : Environment) : Plan Exit := do
  match ← Settings.load invocation.config with
  | .error error => return settingsExit error
  | .ok settings =>
    return commandExit (← invocation.command.plan env (invocation.options settings))

/-- The plan of the program. -/
def program (arguments : List String) (env : Environment) : Plan Exit :=
  match parse arguments with
  | .error ending => .done ending.exit
  | .ok invocation => invocation.plan env

end OperatorBundle.CommandLine
