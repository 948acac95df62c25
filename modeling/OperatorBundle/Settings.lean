import OperatorBundle.Policy
import OperatorBundle.Toml.Document

/-!
Settings: what a release line is called and how its bundle is branded. A settings file gives some of
them and leaves the others at their defaults; keys that name no setting do not count.
-/

namespace OperatorBundle

/-- Who maintains a bundle. -/
structure Maintainer where
  name : String
  email : String
  deriving DecidableEq, Repr

/-- The settings of a run. -/
structure Settings where
  /-- The text by which the operator's deployment and container are found, and with which the name
  of the bundle starts. -/
  operatorName : String
  displayName : String
  channel : String
  branding : String
  /-- What happens to missing targets unless a run says otherwise. -/
  onMissing : Policy
  /-- Whether the time of the build is written into the bundle. -/
  stampCreatedAt : Bool
  validSubscriptions : List String
  maintainer : Maintainer
  deriving DecidableEq, Repr

namespace Settings

/-- The settings without a file. -/
def standard : Settings where
  operatorName := "quay-operator"
  displayName := "Red Hat Quay"
  channel := "stable-3.14"
  branding := "redhat"
  onMissing := .ignore
  stampCreatedAt := false
  validSubscriptions := ["OpenShift Platform Plus", "Red Hat Quay"]
  maintainer := ⟨"Red Hat", "support@redhat.com"⟩

/-! ### Values of a settings file -/

/-- A string. -/
def text? : Toml → Option String
  | .string text => some text
  | _ => none

/-- A truth value. -/
def flag? : Toml → Option Bool
  | .boolean value => some value
  | _ => none

/-- A list of strings. -/
def texts? : Toml → Option (List String)
  | .array items => items.mapM text?
  | _ => none

/-- A policy by its name, or as a table with an empty table under the name. -/
def policy? : Toml → Option Policy
  | .string name => Policy.ofName? name
  | .table _ [(name, .table _ [])] => Policy.ofName? name
  | _ => none

/-- A maintainer as a table with both fields, or as a list that starts with both. -/
def maintainer? : Toml → Option Maintainer
  | .table _ members => do
    some ⟨← text? (← Toml.member? "name" members), ← text? (← Toml.member? "email" members)⟩
  | .array (name :: email :: _) => do some ⟨← text? name, ← text? email⟩
  | _ => none

/-- The value under a key, or a default if there is none; a value of the wrong kind is refused. -/
def valueOr? {α : Type} (members : List (String × Toml)) (name : String)
    (read? : Toml → Option α) (default : α) : Option α :=
  match Toml.member? name members with
  | some value => read? value
  | none => some default

/-- The settings that a file gives. -/
def ofMembers? (members : List (String × Toml)) : Option Settings := do
  some {
    operatorName := ← valueOr? members "operator_name" text? standard.operatorName
    displayName := ← valueOr? members "display_name" text? standard.displayName
    channel := ← valueOr? members "channel" text? standard.channel
    branding := ← valueOr? members "branding" text? standard.branding
    onMissing := ← valueOr? members "on_missing" policy? standard.onMissing
    stampCreatedAt := ← valueOr? members "stamp_created_at" flag? standard.stampCreatedAt
    validSubscriptions :=
      ← valueOr? members "valid_subscriptions" texts? standard.validSubscriptions
    maintainer := ← valueOr? members "maintainer" maintainer? standard.maintainer }

/-- The settings that the text of a file gives; `none` if it is no such text. -/
def ofText? (content : String) : Option Settings :=
  (Toml.document? content).bind ofMembers?

end Settings

end OperatorBundle
