import OperatorBundle.Tree.Basic

/-!
Trees that cannot be written. A writer that meets a mapping with a single entry holds back its
start until it has seen whether the key turns the mapping into a tag. If the key is itself a tagged
node or a mapping with a single entry, the start it held back is lost, and the ends that follow no
longer match. A tag directly inside a tag cannot be written at all.
-/

namespace OperatorBundle.Yaml

/-- Why a tree cannot be written. -/
inductive WriteFault
  | nestedTag
  | afterDocument
  | unmatchedEnd
  deriving DecidableEq, Repr

/-- The fault in words. -/
def WriteFault.message : WriteFault → String
  | .nestedTag => "serializing nested enums in YAML is not supported yet"
  | .afterDocument => "expected DOCUMENT-START or STREAM-END"
  | .unmatchedEnd => "expected SCALAR, SEQUENCE-START, MAPPING-START, or ALIAS"

/-- What a writer is told, in order: scalars, starts and ends of collections, or that a tag stands
inside a tag. -/
inductive Step
  | scalar
  | sequenceStart
  | sequenceEnd
  | mappingStart
  | mappingEnd
  | nestedTag
  deriving DecidableEq, Repr

/-- What a writer holds back when it comes to a node: nothing, the start of a mapping with a single
entry, a tag, or nothing although the node is the first key below a tag. -/
inductive Held
  | nothing
  | start
  | tag
  | belowTag
  deriving DecidableEq

/-- The start that is written before a node. -/
def Held.released : Held → List Step
  | .start => [.mappingStart]
  | _ => []

mutual
/-- The steps in which a node is written. -/
def steps (held : Held) : Tree → List Step
  | .sequence items => held.released ++ .sequenceStart :: (itemSteps items ++ [.sequenceEnd])
  | .mapping [(key, value)] =>
    let (start, held) := match held with
      | .tag => ([Step.mappingStart], Held.belowTag)
      | _ => ([], .start)
    start ++ steps held key ++ steps .nothing value ++ [.mappingEnd]
  | .mapping entries => held.released ++ .mappingStart :: (entrySteps entries ++ [.mappingEnd])
  | .tagged _ content =>
    match held with
    | .tag => [.mappingStart, .nestedTag]
    | _ => steps .tag content
  | _ => held.released ++ [.scalar]

/-- The steps in which items are written. -/
def itemSteps : List Tree → List Step
  | [] => []
  | item :: more => steps .nothing item ++ itemSteps more

/-- The steps in which entries are written. -/
def entrySteps : List (Tree × Tree) → List Step
  | [] => []
  | (key, value) :: more => steps .nothing key ++ steps .nothing value ++ entrySteps more
end

/-- An open collection: a sequence, or a mapping before a key or before a value. -/
inductive Place
  | item
  | key
  | value
  deriving DecidableEq

/-- The open collections once a node stands in the innermost one. -/
def Place.next : List Place → List Place
  | .key :: outer => .value :: outer
  | .value :: outer => .key :: outer
  | places => places

/-- The fault of the first step that fits no open collection. -/
def faultAmong : List Place → List Step → Option WriteFault
  | _, [] => none
  | places, .scalar :: more => faultAmong (Place.next places) more
  | places, .sequenceStart :: more => faultAmong (.item :: Place.next places) more
  | places, .mappingStart :: more => faultAmong (.key :: Place.next places) more
  | .item :: outer, .sequenceEnd :: more => faultAmong outer more
  | .key :: outer, .mappingEnd :: more => faultAmong outer more
  | _, .nestedTag :: _ => some .nestedTag
  | [], _ :: _ => some .afterDocument
  | _ :: _, _ :: _ => some .unmatchedEnd

/-- Why a tree cannot be written, if it cannot. -/
def writeFault? (tree : Tree) : Option WriteFault := faultAmong [] (steps .nothing tree)

end OperatorBundle.Yaml
