import OperatorBundle.Build.Environment
import OperatorBundle.Release

/-!
The inputs of the two patches, read from the environment in a fixed order: the first variable that
is missing or malformed is the one that is reported.
-/

namespace OperatorBundle

/-- The images that the operator is told of. -/
structure RelatedImages where
  quay : String
  clair : String
  builder : String
  builderQemu : String
  postgres : String
  postgresPrevious : String
  clairPostgres : String
  clairPostgresPrevious : String
  redis : String
  deriving DecidableEq, Repr

/-- The inputs of the patch of a service version. -/
structure ReleaseInputs where
  targetFile : String
  release : Release
  /-- The version in names, and the version of the bundle. -/
  currentVersion : String
  /-- The version that ends the names of the images built with the release. -/
  fullVersion : String
  operatorImage : String
  images : RelatedImages
  /-- The time of the build, in seconds since the start of 1970. -/
  timestamp : Option Int
  deriving DecidableEq, Repr

/-- The inputs of the patch of the bundle's annotations. -/
structure AnnotationInputs where
  targetFile : String
  deriving DecidableEq, Repr

/-- The variables that must be set for a service version, in the order in which they are read. -/
def releaseVariables : List String :=
  ["CI_VERSION", "TARGET_CSV_FILE", "X_VERSION", "Y_VERSION", "Z_VERSION", "CI_VERSION_SANITIZED",
    "OPERATOR_IMAGE", "QUAY_IMAGE", "CLAIR_IMAGE", "QUAY_BUILDER_IMAGE", "QUAY_BUILDER_QEMU_IMAGE",
    "POSTGRES_IMAGE", "POSTGRES_IMAGE_PREVIOUS", "CLAIR_POSTGRES_IMAGE",
    "CLAIR_POSTGRES_IMAGE_PREVIOUS", "REDIS_IMAGE"]

namespace ReleaseInputs

/-- The inputs that an environment gives. The images built with the release end in its version. -/
def ofEnvironment (env : Environment) : Except InputError ReleaseInputs := do
  let fullVersion ← env.required "CI_VERSION"
  let tagged (name : String) : Except InputError String := do
    return (← env.required name) ++ fullVersion
  let targetFile ← env.required "TARGET_CSV_FILE"
  let major ← env.requiredNumber "X_VERSION"
  let minor ← env.requiredNumber "Y_VERSION"
  let patch ← env.requiredNumber "Z_VERSION"
  let currentVersion ← env.required "CI_VERSION_SANITIZED"
  let operatorImage ← tagged "OPERATOR_IMAGE"
  let quay ← tagged "QUAY_IMAGE"
  let clair ← tagged "CLAIR_IMAGE"
  let builder ← tagged "QUAY_BUILDER_IMAGE"
  let builderQemu ← tagged "QUAY_BUILDER_QEMU_IMAGE"
  let postgres ← env.required "POSTGRES_IMAGE"
  let postgresPrevious ← env.required "POSTGRES_IMAGE_PREVIOUS"
  let clairPostgres ← env.required "CLAIR_POSTGRES_IMAGE"
  let clairPostgresPrevious ← env.required "CLAIR_POSTGRES_IMAGE_PREVIOUS"
  let redis ← env.required "REDIS_IMAGE"
  let timestamp ← env.optionalNumber "EPOC_TIMESTAMP"
  let images := { quay, clair, builder, builderQemu, postgres, postgresPrevious, clairPostgres,
                  clairPostgresPrevious, redis }
  return { targetFile, release := ⟨major, minor, patch⟩, currentVersion, fullVersion,
           operatorImage, images, timestamp }

end ReleaseInputs

/-- The inputs that an environment gives. -/
def AnnotationInputs.ofEnvironment (env : Environment) : Except InputError AnnotationInputs := do
  return ⟨← env.required "TARGET_METADATA_ANNOTATIONS_FILE"⟩

end OperatorBundle
