import OperatorBundle.Text.Quoted
import OperatorBundle.Text.Search
import OperatorBundle.Tree.Basic

/-!
Locators: paths into a document. A segment is a key, an index, or a condition that picks the first
item of a sequence. A locator is written with dots before plain keys and brackets around all else.
-/

namespace OperatorBundle

open OperatorBundle.Text

/-- A condition on a text. -/
inductive Matcher
  | contains (needle : String)
  | equals (value : String)
  deriving DecidableEq, Repr

/-- Whether a text satisfies a condition. -/
def Matcher.accepts : Matcher → String → Bool
  | .contains needle, text => occursIn needle.toList text.toList
  | .equals value, text => text = value

/-- A condition on an item of a sequence: that a field of it holds a text that is accepted. -/
structure Selector where
  field : String
  matcher : Matcher
  deriving DecidableEq, Repr

/-- Whether an item satisfies a condition. -/
def Selector.accepts (selector : Selector) (item : Tree) : Bool :=
  match (item.field? selector.field).bind Tree.text? with
  | some text => selector.matcher.accepts text
  | none => false

/-- One step of a locator. -/
inductive Segment
  | key (name : String)
  | index (position : Nat)
  | find (selector : Selector)
  deriving DecidableEq, Repr

/-- Whether a key is written without brackets: ASCII letters, digits, underscores and dashes. -/
def isPlainKey (name : String) : Bool :=
  !name.isEmpty && name.toList.all fun c => c.isAlphanum || c = '_' || c = '-'

/-- The operator of a condition, as written. -/
def Matcher.sign : Matcher → List Char
  | .contains _ => ['~', '=']
  | .equals _ => ['=', '=']

/-- The text that a condition compares with. -/
def Matcher.operand : Matcher → String
  | .contains needle => needle
  | .equals value => value

/-- A segment as written. -/
def Segment.text : Segment → List Char
  | .key name =>
    if isPlainKey name then '.' :: name.toList else '[' :: (quoted name.toList ++ [']'])
  | .index position => '[' :: (decimal position ++ [']'])
  | .find selector =>
    '[' :: (selector.field.toList ++ selector.matcher.sign ++
      quoted selector.matcher.operand.toList ++ [']'])

/-- A path into a document, from its root. -/
structure Locator where
  segments : List Segment
  deriving DecidableEq, Repr

namespace Locator

/-- The root of the document. -/
def root : Locator := ⟨[]⟩

/-- The locator of a place below another. -/
def below (locator : Locator) (segment : Segment) : Locator := ⟨locator.segments ++ [segment]⟩

/-- The value under a key. -/
def key (locator : Locator) (name : String) : Locator := locator.below (.key name)

/-- An item by its position. -/
def index (locator : Locator) (position : Nat) : Locator := locator.below (.index position)

/-- The first item with a field that contains a text. -/
def findContaining (locator : Locator) (field needle : String) : Locator :=
  locator.below (.find ⟨field, .contains needle⟩)

/-- The keys between the dots of a text; empty ones are left out. -/
def path (dotted : String) : Locator :=
  ⟨((pieces '.' dotted.toList).filter fun k => !k.isEmpty).map fun k => .key (String.ofList k)⟩

/-- A locator as written: a dot for the root, and no dot before a first plain key. -/
def text (locator : Locator) : String :=
  match locator.segments.flatMap Segment.text with
  | [] => "."
  | '.' :: rest => String.ofList rest
  | cs => String.ofList cs

/-- The parent and the last segment; the root has neither. -/
def splitLast? (locator : Locator) : Option (List Segment × Segment) :=
  locator.segments.getLast?.map fun last => (locator.segments.dropLast, last)

end Locator

end OperatorBundle
