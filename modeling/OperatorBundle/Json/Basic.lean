import OperatorBundle.Text.Digits

/-!
JSON documents and their two written forms: compact, and spread over lines with two spaces for each
level. A number is kept as its numeral.
-/

namespace OperatorBundle

open OperatorBundle.Text

/-- A JSON document. The members of an object keep their order. -/
inductive Json
  | null
  | bool (value : Bool)
  | number (numeral : String)
  | string (text : String)
  | array (items : List Json)
  | object (members : List (String × Json))
  deriving Inhabited

namespace Json

/-- One character between the quotes of a string. Only quotes, backslashes and the controls below
the space are escaped. -/
def stringChar (c : Char) : List Char :=
  if c = '"' || c = '\\' then ['\\', c]
  else if c = '\x08' then ['\\', 'b']
  else if c = '\x0c' then ['\\', 'f']
  else if c = '\n' then ['\\', 'n']
  else if c = '\r' then ['\\', 'r']
  else if c = '\t' then ['\\', 't']
  else if c < ' ' then '\\' :: 'u' :: hexPadded 4 c.toNat
  else [c]

/-- The written form of a string. -/
def stringText (s : String) : List Char := '"' :: (s.toList.flatMap stringChar ++ ['"'])

/-- Texts with a separator between them. -/
def separated (separator : List Char) : List (List Char) → List Char
  | [] => []
  | [text] => text
  | text :: more => text ++ separator ++ separated separator more

mutual
/-- The written form without blanks. -/
def compact : Json → List Char
  | .null => ['n', 'u', 'l', 'l']
  | .bool true => ['t', 'r', 'u', 'e']
  | .bool false => ['f', 'a', 'l', 's', 'e']
  | .number numeral => numeral.toList
  | .string text => stringText text
  | .array items => '[' :: (separated [','] (compactItems items) ++ [']'])
  | .object members => '\x7b' :: (separated [','] (compactMembers members) ++ ['\x7d'])

/-- The items of an array without blanks. -/
def compactItems : List Json → List (List Char)
  | [] => []
  | item :: more => item.compact :: compactItems more

/-- The members of an object without blanks. -/
def compactMembers : List (String × Json) → List (List Char)
  | [] => []
  | (name, value) :: more =>
    (stringText name ++ ':' :: value.compact) :: compactMembers more
end

/-- A line feed and the indentation of a level. -/
def newLine (level : Nat) : List Char := '\n' :: List.replicate (2 * level) ' '

/-- Brackets around parts that stand on lines of their own; an empty list stays on one line. -/
def spread (opening closing : Char) (level : Nat) (parts : List (List Char)) : List Char :=
  if parts.isEmpty then [opening, closing]
  else opening :: (newLine (level + 1) ++ separated (',' :: newLine (level + 1)) parts ++
    newLine level ++ [closing])

mutual
/-- The written form with a line for each item and member, at a level of indentation. -/
def prettyAt (level : Nat) : Json → List Char
  | .array items => spread '[' ']' level (prettyItems level items)
  | .object members => spread '\x7b' '\x7d' level (prettyMembers level members)
  | json => json.compact

/-- The items of an array, each on lines of its own. -/
def prettyItems (level : Nat) : List Json → List (List Char)
  | [] => []
  | item :: more => item.prettyAt (level + 1) :: prettyItems level more

/-- The members of an object, each on lines of its own. -/
def prettyMembers (level : Nat) : List (String × Json) → List (List Char)
  | [] => []
  | (name, value) :: more =>
    (stringText name ++ ':' :: ' ' :: value.prettyAt (level + 1)) :: prettyMembers level more
end

/-- The written form with a line for each item and member. -/
def pretty (json : Json) : List Char := json.prettyAt 0

/-- The value of a member; of members with one name the last counts. -/
def member? (name : String) (members : List (String × Json)) : Option Json :=
  (members.reverse.find? fun m => m.1 = name).map (·.2)

end Json

end OperatorBundle
