import OperatorBundle.Text.Search

/-!
Files as a run sees them: a tree of folders, and in it the folder that the run starts in. A file
holds text, or bytes that are no text. Paths are followed part by part, from the root of the tree or
from where the run starts, and the first part that leads nowhere decides what is reported. Folders
may refuse to be searched, and files to be read.
-/

namespace OperatorBundle

open OperatorBundle.Text

/-- What a file holds. -/
inductive Content
  | text (text : String)
  | bytes (bytes : List UInt8)
  deriving DecidableEq

/-- What stands under a name. -/
inductive FileNode
  | file (content : Content)
  | folder
  deriving DecidableEq

/-- What a run finds on its machine and cannot change. Places are given by the parts that lead to
them from the root. -/
structure Machine where
  /-- The folder that a run starts in. -/
  start : List String
  /-- Why a folder cannot be searched, in the words of the system. -/
  barred : List String → Option String
  /-- Why what stands at a place cannot be read, in the words of the system. -/
  locked : List String → Option String

/-- A machine without faults, with a folder below the root to start in. -/
def Machine.standard : Machine := ⟨["work"], fun _ => none, fun _ => none⟩

/-- The files and folders of a machine by their places. The folder that a run starts in is always
there, and so are the folders above it. -/
structure Files (machine : Machine := .standard) where
  nodes : List (List String × FileNode)

/-- Why a file cannot be read or written. -/
inductive FileFault
  | notFound
  | notAFolder
  | isFolder
  | nameTooLong
  | zeroCharacter
  | notText
  /-- Any other fault, in the words of the system. -/
  | other (message : String)
  deriving DecidableEq, Repr

/-- The fault in the words of the system. -/
def FileFault.message : FileFault → String
  | .notFound => "No such file or directory (os error 2)"
  | .notAFolder => "Not a directory (os error 20)"
  | .isFolder => "Is a directory (os error 21)"
  | .nameTooLong => "File name too long (os error 36)"
  | .zeroCharacter => "file name contained an unexpected NUL byte"
  | .notText => "stream did not contain valid UTF-8"
  | .other message => message

/-- What stands at a place is opened to be read. -/
def Machine.unlock (machine : Machine) (place : List String) : Except FileFault Unit :=
  match machine.locked place with
  | some message => .error (.other message)
  | none => .ok ()

/-- The greatest number of bytes of one part of a path. -/
def partLimit : Nat := 255

/-- The greatest number of bytes of a path. -/
def pathLimit : Nat := 4095

namespace Files

variable {machine : Machine}

/-- What stands at a place. -/
def nodeAt? (files : Files machine) (place : List String) : Option FileNode :=
  if place.isPrefixOf machine.start then some .folder else files.nodes.lookup place

/-- What stands at a path of parts from the folder that a run starts in. -/
def node? (files : Files machine) (path : List String) : Option FileNode :=
  files.nodeAt? (machine.start ++ path)

/-- A node is put at a place, over what may stand there. -/
def insert (files : Files machine) (place : List String) (node : FileNode) : Files machine :=
  ⟨(place, node) :: files.nodes.filter fun entry => entry.1 ≠ place⟩

/-- A folder is put at a place unless something stands there. -/
def insertFolder (files : Files machine) (place : List String) : Files machine :=
  if (files.nodeAt? place).isSome then files else files.insert place .folder

/-- A node is put at a path of parts from the folder that a run starts in, with the folders that
lead there. -/
def add (files : Files machine) (path : List String) (node : FileNode) : Files machine :=
  let place := machine.start ++ path
  let parents := (List.range place.length).map place.take
  (parents.foldl insertFolder files).insert place node

/-- Where a path leads: the place and what stands there, and whether the path asks for a folder. -/
structure Place where
  path : List String
  node : Option FileNode
  asFolder : Bool

/-- A path is followed from a folder. All parts but the last have to be folders, and each folder is
searched for the part behind it. -/
def follow (files : Files machine) (asFolder : Bool) :
    List String → List String → Except FileFault Place
  | folder, [] => .ok ⟨folder, some .folder, asFolder⟩
  | folder, part :: rest =>
    match machine.barred folder with
    | some message => .error (.other message)
    | none =>
      if part = "." then follow files asFolder folder rest
      else if part = ".." then follow files asFolder folder.dropLast rest
      else if partLimit < part.utf8ByteSize then .error .nameTooLong
      else match files.nodeAt? (folder ++ [part]) with
        | some .folder => follow files asFolder (folder ++ [part]) rest
        | some (.file content) =>
          if rest.isEmpty then .ok ⟨folder ++ [part], some (.file content), asFolder⟩
          else .error .notAFolder
        | none =>
          if rest.isEmpty then .ok ⟨folder ++ [part], none, asFolder⟩ else .error .notFound

/-- The place that a path leads to. One that starts with a slash is followed from the root, and one
that ends with a slash asks for a folder. -/
def locate (files : Files machine) (path : String) : Except FileFault Place :=
  let cs := path.toList
  if cs.contains '\x00' then .error .zeroCharacter
  else if cs.isEmpty then .error .notFound
  else if pathLimit < path.utf8ByteSize then .error .nameTooLong
  else
    follow files (cs.getLast? = some '/') (if cs.head? = some '/' then [] else machine.start)
      (((pieces '/' cs).map String.ofList).filter fun part => part ≠ "")

/-- The text of a file. -/
def read (files : Files machine) (path : String) : Except FileFault String := do
  let place ← files.locate path
  match place.node with
  | none => .error .notFound
  | some .folder => do
    machine.unlock place.path
    .error .isFolder
  | some (.file content) =>
    if place.asFolder then .error .notAFolder
    else do
      machine.unlock place.path
      match content with
      | .text text => .ok text
      | .bytes _ => .error .notText

/-- A text is written to a file, over what it held. -/
def write (files : Files machine) (path : String) (text : String) :
    Except FileFault (Files machine) := do
  let place ← files.locate path
  if place.asFolder || place.node = some .folder then .error .isFolder
  else .ok (files.insert place.path (.file (.text text)))

end Files

end OperatorBundle
