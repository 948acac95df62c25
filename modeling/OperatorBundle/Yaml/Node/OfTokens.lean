import OperatorBundle.Yaml.Node.Basic
import OperatorBundle.Yaml.Token.Lexer

/-!
From tokens to nodes, by recursive descent. Anchors are numbered where they are set: the number is
that of the different names set before, so an anchor that is set again has a number of its own,
which the next new name shares.
-/

namespace OperatorBundle.Yaml

/-- What is left of a document, and the numbers of the anchors set so far. -/
structure Rest where
  tokens : List Token
  anchors : List (List Char × Nat)

/-- A reader that takes tokens. -/
abbrev Reader := StateT Rest (Except Fault)

namespace Reader

/-- The next token, which stays. -/
def next : Reader (Option Token) := do return (← get).tokens.head?

/-- The next token is taken. -/
def skip : Reader Unit := modify fun rest => { rest with tokens := rest.tokens.tail }

/-- Whether the next token is one of some tokens. -/
def nextIn (tokens : List Token) : Reader Bool := do
  return match ← next with
    | some token => tokens.contains token
    | none => false

/-- The number of a new anchor, which its name stands for from here on. -/
def setAnchor (name : List Char) : Reader Nat := do
  let anchors := (← get).anchors
  let number := anchors.length
  modify fun rest =>
    { rest with anchors := (name, number) :: anchors.filter fun entry => entry.1 ≠ name }
  return number

/-- The texts that tag handles stand for. -/
abbrev Handles := List (List Char × List UInt8)

/-- The handles that every document knows. -/
def standardHandles : Handles :=
  [(['!'], asciiBytes ['!']), (['!', '!'], asciiBytes "tag:yaml.org,2002:".toList)]

/-- The full text of a tag. -/
def resolveTag (handles : Handles) (tag : TagText) : Except Fault (List UInt8) :=
  if tag.handle.isEmpty then .ok tag.suffix
  else match handles.lookup tag.handle with
    | some lead => .ok (lead ++ tag.suffix)
    | none => .error .tag

/-- The properties before a node: an anchor and a tag at most, in either order. -/
def properties (handles : Handles) : Reader Properties := do
  match ← next with
  | some (.anchor name) =>
    skip
    let number ← setAnchor name
    match ← next with
    | some (.tag tag) => do
      skip
      return ⟨some number, some (← resolveTag handles tag)⟩
    | _ => return ⟨some number, none⟩
  | some (.tag tag) =>
    skip
    let text ← resolveTag handles tag
    match ← next with
    | some (.anchor name) => do
      skip
      return ⟨some (← setAnchor name), some text⟩
    | _ => return ⟨none, some text⟩
  | _ => return .none

/-- The comma before every part of a flow collection but the first. -/
def separator (isFirst : Bool) : Reader Unit := do
  if !isFirst then
    if ← nextIn [.flowEntry] then skip else throw .node

/-- A node, or the empty node if one of some tokens comes next. -/
def orEmpty (inner : Bool → Bool → Reader Node) (inBlock indentless : Bool) (stops : List Token) :
    Reader Node := do
  if ← nextIn stops then return .empty else inner inBlock indentless

/-- The items of a block sequence. -/
def blockItems (inner : Bool → Bool → Reader Node) : Nat → Reader (List Node)
  | 0 => throw .tooDeep
  | fuel + 1 => do
    match ← next with
    | some .blockEntry =>
      skip
      let item ← orEmpty inner true false [.blockEntry, .blockEnd]
      return item :: (← blockItems inner fuel)
    | some .blockEnd =>
      skip
      return []
    | _ => throw .indentation

/-- The items of a sequence at the indentation of its key. -/
def indentlessItems (inner : Bool → Bool → Reader Node) : Nat → Reader (List Node)
  | 0 => throw .tooDeep
  | fuel + 1 => do
    match ← next with
    | some .blockEntry =>
      skip
      let item ← orEmpty inner true false [.blockEntry, .key, .value, .blockEnd]
      return item :: (← indentlessItems inner fuel)
    | _ => return []

/-- The value of an entry, which may be left out with its mark or without. -/
def valueAfter (inner : Bool → Bool → Reader Node) (inBlock : Bool) (stops : List Token) :
    Reader Node := do
  match ← next with
  | some .value =>
    skip
    orEmpty inner inBlock inBlock stops
  | _ => return .empty

/-- The entries of a block mapping. -/
def blockEntries (inner : Bool → Bool → Reader Node) : Nat → Reader (List (Node × Node))
  | 0 => throw .tooDeep
  | fuel + 1 => do
    match ← next with
    | some .key =>
      skip
      let key ← orEmpty inner true true [.key, .value, .blockEnd]
      let value ← valueAfter inner true [.key, .value, .blockEnd]
      return (key, value) :: (← blockEntries inner fuel)
    | some .blockEnd =>
      skip
      return []
    | _ => throw .indentation

/-- The key of an entry in a flow sequence. The token after an empty key is lost. -/
def pairKey (inner : Bool → Bool → Reader Node) : Reader Node := do
  if ← nextIn [.value, .flowEntry, .flowSequenceEnd] then
    skip
    return .empty
  else inner false false

/-- The items of a flow sequence; an entry with a key mark is a mapping of its own. -/
def flowItems (inner : Bool → Bool → Reader Node) : Nat → (isFirst : Bool) → Reader (List Node)
  | 0, _ => throw .tooDeep
  | fuel + 1, isFirst => do
    if ← nextIn [.flowSequenceEnd] then
      skip
      return []
    else
      separator isFirst
      match ← next with
      | some .flowSequenceEnd =>
        skip
        return []
      | some .key =>
        skip
        let key ← pairKey inner
        let value ← valueAfter inner false [.flowEntry, .flowSequenceEnd]
        return .mapping .none [(key, value)] :: (← flowItems inner fuel false)
      | _ =>
        let item ← inner false false
        return item :: (← flowItems inner fuel false)

/-- The entries of a flow mapping; a key may stand without a value. -/
def flowEntries (inner : Bool → Bool → Reader Node) :
    Nat → (isFirst : Bool) → Reader (List (Node × Node))
  | 0, _ => throw .tooDeep
  | fuel + 1, isFirst => do
    if ← nextIn [.flowMappingEnd] then
      skip
      return []
    else
      separator isFirst
      match ← next with
      | some .flowMappingEnd =>
        skip
        return []
      | some .key =>
        skip
        let key ← orEmpty inner false false [.value, .flowEntry, .flowMappingEnd]
        let value ← valueAfter inner false [.flowEntry, .flowMappingEnd]
        return (key, value) :: (← flowEntries inner fuel false)
      | _ =>
        let key ← inner false false
        return (key, .empty) :: (← flowEntries inner fuel false)

/-- The node at the next token. In a block, block collections may start here; where a sequence may
stand at the indentation of its key, `indentless`, its items may follow directly. -/
def node (handles : Handles) : Nat → (inBlock indentless : Bool) → Reader Node
  | 0, _, _ => throw .tooDeep
  | fuel + 1, inBlock, indentless => do
    match ← next with
    | some (.alias name) =>
      skip
      match (← get).anchors.lookup name with
      | some number => return .alias number
      | none => throw .unknownAlias
    | _ =>
      let p ← properties handles
      match ← next with
      | some (.scalar text plain) => do
        skip
        return .scalar p text plain
      | some .flowSequenceStart => do
        skip
        return .sequence p (← flowItems (node handles fuel) fuel true)
      | some .flowMappingStart => do
        skip
        return .mapping p (← flowEntries (node handles fuel) fuel true)
      | token =>
        if token = some .blockEntry && indentless then
          return .sequence p (← indentlessItems (node handles fuel) fuel)
        else if token = some .blockSequenceStart && inBlock then
          skip
          return .sequence p (← blockItems (node handles fuel) fuel)
        else if token = some .blockMappingStart && inBlock then
          skip
          return .mapping p (← blockEntries (node handles fuel) fuel)
        else if p.anchor.isSome || p.tag.isSome then return .scalar p [] true
        else throw .node

/-- The directives before a document: a version that is understood, at most once, and handles. -/
def directives : Nat → Bool → Handles → Reader Handles
  | 0, _, handles => return handles
  | fuel + 1, versioned, handles => do
    match ← next with
    | some (.versionDirective major minor) =>
      if versioned || major ≠ 1 || (minor ≠ 1 && minor ≠ 2) then throw .directive
      else
        skip
        directives fuel true handles
    | some (.tagDirective handle lead) =>
      if (handles.lookup handle).isSome then throw .directive
      else
        skip
        directives fuel versioned (handles ++ [(handle, lead)])
    | _ => return handles

/-- The marks after a document. -/
def documentEnds : Nat → Reader Unit
  | 0 => return
  | fuel + 1 => do
    if ← nextIn [.documentEnd] then
      skip
      documentEnds fuel

/-- Whether the next token starts a document. -/
def atDocumentStart : Reader Bool := do
  return match ← next with
    | some .documentStart | some (.versionDirective _ _) | some (.tagDirective _ _) => true
    | _ => false

/-- The root of a document that is marked by a start. -/
def markedRoot (fuel : Nat) : Reader Node := do
  let handles ← directives fuel false []
  if ← nextIn [.documentStart] then
    skip
    if (← atDocumentStart) || (← nextIn [.documentEnd]) || (← next).isNone then return .empty
    else node (handles ++ standardHandles) fuel true false
  else throw .directive

/-- The root of the only document of a text; a text without any is empty. -/
def root (fuel : Nat) : Reader Node := do
  if (← next).isNone then return .empty
  else
    let node ← if ← atDocumentStart then markedRoot fuel
      else node standardHandles fuel true false
    documentEnds fuel
    if (← next).isNone then return node else throw .severalDocuments

end Reader

/-- The root of the document that tokens write. Every node takes a token or follows one, so the
number of tokens bounds the depth. -/
def Node.ofTokens (tokens : List Token) : Except Fault Node :=
  (Reader.root (2 * tokens.length + 2)).run' ⟨tokens, []⟩

end OperatorBundle.Yaml
