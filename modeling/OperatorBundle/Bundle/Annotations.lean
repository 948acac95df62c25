import OperatorBundle.Patch.Basic
import OperatorBundle.Settings

/-!
The patch of the bundle's annotations: the package and its channels.
-/

namespace OperatorBundle.Bundle

/-- An annotation of the bundle, by the last part of its name. -/
def bundleMark (name : String) : Locator :=
  (Locator.path "annotations").key ("operators.operatorframework.io.bundle." ++ name)

/-- The operations on the annotations, in order. -/
def annotationsPatch (settings : Settings) : List Operation :=
  [.setText (bundleMark "package.v1") settings.operatorName,
    .setText (bundleMark "channel.default.v1") settings.channel,
    .setText (bundleMark "channels.v1") settings.channel]

end OperatorBundle.Bundle
