/-!
The tokens of a YAML text. The starts and ends of block collections, which the text shows by
indentation only, are tokens too.
-/

namespace OperatorBundle.Yaml

/-- A tag as written: a handle that stands for a longer text, and the bytes after it. -/
structure TagText where
  handle : List Char
  suffix : List UInt8
  deriving DecidableEq

/-- A token of a YAML text. -/
inductive Token
  | versionDirective (major minor : Nat)
  | tagDirective (handle : List Char) (lead : List UInt8)
  | documentStart
  | documentEnd
  | blockSequenceStart
  | blockMappingStart
  | blockEnd
  | flowSequenceStart
  | flowSequenceEnd
  | flowMappingStart
  | flowMappingEnd
  | blockEntry
  | flowEntry
  | key
  | value
  | alias (name : List Char)
  | anchor (name : List Char)
  | tag (text : TagText)
  | scalar (text : List Char) (plain : Bool)
  deriving DecidableEq

end OperatorBundle.Yaml
