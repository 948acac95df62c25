import OperatorBundle.Build.Calendar
import OperatorBundle.Build.Inputs
import OperatorBundle.Bundle.Description
import OperatorBundle.Json.Basic
import OperatorBundle.Patch.Basic
import OperatorBundle.Settings

/-!
The patch of a service version: it gets the names and texts of the release, its place in the upgrade
graph, and the images of the operator and of what the operator installs.
-/

namespace OperatorBundle.Bundle

open OperatorBundle.Json

/-- The name of the bundle of a release. -/
def bundleName (settings : Settings) (version : String) : String :=
  settings.operatorName ++ ".v" ++ version

/-- The versions from which an upgrade may go straight to the release. -/
def skipRange (inputs : ReleaseInputs) : String :=
  ">=" ++ inputs.release.skipRangeFloor ++ " <" ++ inputs.currentVersion

/-- An annotation of the service version. -/
def versionMark (name : String) : Locator := (Locator.path "metadata.annotations").key name

/-- The first deployment named after the operator. -/
def operatorDeployment (settings : Settings) : Locator :=
  (Locator.path "spec.install.spec.deployments").findContaining "name" settings.operatorName

/-- The first container named after the operator in its deployment. -/
def operatorContainer (settings : Settings) : Locator :=
  ((((operatorDeployment settings).key "spec").key "template").key "spec").key "containers"
    |>.findContaining "name" settings.operatorName

/-- The variables that tell the operator's container of the brand and of the images. -/
def containerVariables (settings : Settings) (inputs : ReleaseInputs) : List (String × String) :=
  let images := inputs.images
  [("QUAY_DEFAULT_BRANDING", settings.branding),
    ("RELATED_IMAGE_COMPONENT_BUILDER", images.builder),
    ("RELATED_IMAGE_COMPONENT_BUILDER_QEMU", images.builderQemu),
    ("RELATED_IMAGE_COMPONENT_CLAIR", images.clair),
    ("RELATED_IMAGE_COMPONENT_CLAIRPOSTGRES", images.clairPostgres),
    ("RELATED_IMAGE_COMPONENT_CLAIRPOSTGRES_PREVIOUS", images.clairPostgresPrevious),
    ("RELATED_IMAGE_COMPONENT_POSTGRES", images.postgres),
    ("RELATED_IMAGE_COMPONENT_POSTGRES_PREVIOUS", images.postgresPrevious),
    ("RELATED_IMAGE_COMPONENT_QUAY", images.quay),
    ("RELATED_IMAGE_COMPONENT_REDIS", images.redis)]

/-- The maintainers of the bundle. -/
def maintainers (settings : Settings) : Tree :=
  .sequence [.mapping [(.text "email", .text settings.maintainer.email),
    (.text "name", .text settings.maintainer.name)]]

/-- The subscriptions that allow the bundle, as a JSON list with a space after each comma. -/
def subscriptionList (settings : Settings) : String :=
  let names := settings.validSubscriptions.map stringText
  String.ofList ('[' :: (separated [',', ' '] names ++ [']']))

/-- The operation that writes the time of the build, if it is asked for. -/
def stamp (settings : Settings) (inputs : ReleaseInputs) : Except InputError (List Operation) :=
  if settings.stampCreatedAt then
    match inputs.timestamp with
    | none => .error (.missingVariable "EPOC_TIMESTAMP")
    | some seconds =>
      match timeStamp? seconds with
      | some text => .ok [.setText (versionMark "createdAt") text]
      | none => .error (.invalidTimestamp seconds)
  else .ok []

/-- The operation that says which release this one replaces. The first release of a minor version
replaces none. -/
def replaced (settings : Settings) (inputs : ReleaseInputs) : Operation :=
  match inputs.release.previous? with
  | none => .remove (.path "spec.replaces")
  | some previous => .setText (.path "spec.replaces") (bundleName settings previous.text)

/-- The operations on the names and texts of a service version, and on what it says of the release,
in order. -/
def releaseOperations (inputs : ReleaseInputs) (settings : Settings) (stamp : List Operation) :
    List Operation :=
  .setText (.path "metadata.name") (bundleName settings inputs.currentVersion) :: (stamp ++ [
    .set (.path "spec.maintainers") (maintainers settings),
    .setText (((Locator.path "spec.icon").index 0).key "mediatype") "image/svg+xml",
    .setText (.path "spec.description") description,
    .setText (.path "spec.displayName") settings.displayName,
    .setText (.path "spec.version") inputs.currentVersion,
    replaced settings inputs,
    .setText (versionMark "olm.skipRange") (skipRange inputs),
    .setText (versionMark "containerImage") inputs.operatorImage,
    .setText (versionMark "quay-version") inputs.fullVersion,
    .replace (versionMark "description") "Quay" "Red Hat",
    .setText (versionMark "operators.openshift.io/valid-subscription") (subscriptionList settings)])

/-- The operations on the operator's deployment, in order: its name, and in its container the image
and the variables. -/
def deploymentOperations (inputs : ReleaseInputs) (settings : Settings) : List Operation :=
  [.setText ((operatorDeployment settings).key "name") (bundleName settings inputs.currentVersion),
    .setText ((operatorContainer settings).key "image") inputs.operatorImage,
    .setEntries ((operatorContainer settings).key "env") "name" "value"
      (containerVariables settings inputs)]

/-- The operations on a service version, in order. -/
def serviceVersionPatch (inputs : ReleaseInputs) (settings : Settings) :
    Except InputError (List Operation) := do
  let stamp ← stamp settings inputs
  return releaseOperations inputs settings stamp ++ deploymentOperations inputs settings

end OperatorBundle.Bundle
