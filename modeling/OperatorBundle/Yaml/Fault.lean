/-!
What can be wrong with a YAML text.
-/

namespace OperatorBundle.Yaml

/-- Why a text is no YAML document, or stands for no tree. -/
inductive Fault
  | character
  | tab
  | indentation
  | directive
  | anchor
  | tag
  | escape
  | unclosedQuote
  | blockHeader
  | missingColon
  | notAllowedHere
  | node
  | unknownAlias
  | duplicateKey
  | tooDeep
  | tooManyAliases
  | numberRange
  | tagMismatch
  | severalDocuments
  deriving DecidableEq, Repr

/-- The fault in words. -/
def Fault.message : Fault → String
  | .character => "a character is not allowed here"
  | .tab => "a tab stands where indentation is expected"
  | .indentation => "the indentation fits no open collection"
  | .directive => "malformed directive"
  | .anchor => "malformed anchor or alias"
  | .tag => "malformed tag"
  | .escape => "malformed escape sequence"
  | .unclosedQuote => "a quoted scalar is not closed"
  | .blockHeader => "malformed header of a block scalar"
  | .missingColon => "a key has no colon"
  | .notAllowedHere => "a collection may not start here"
  | .node => "a node is expected"
  | .unknownAlias => "an alias names no anchor"
  | .duplicateKey => "a mapping repeats a key"
  | .tooDeep => "collections are nested too deeply"
  | .tooManyAliases => "aliases repeat too many nodes"
  | .numberRange => "an integer is out of range"
  | .tagMismatch => "a scalar does not fit its tag"
  | .severalDocuments => "the text holds more than one document"

end OperatorBundle.Yaml
