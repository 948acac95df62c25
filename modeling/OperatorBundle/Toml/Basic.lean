/-!
TOML documents. A settings file holds strings, truth values, lists and tables; numbers and dates
are recognised, and their values are not needed. Tables remember how they came to be, since that
decides whether they may be added to.
-/

namespace OperatorBundle

/-- How a table came to be: under a header of its own, only because a header names a table below it,
by the dots of a key, or between braces. -/
inductive TableOrigin
  | header
  | implied
  | dotted
  | inline
  deriving DecidableEq

/-- A TOML value. A list of tables is one that headers in double brackets fill. -/
inductive Toml
  | string (text : String)
  | boolean (value : Bool)
  | integer
  | float
  | date
  | array (items : List Toml)
  | table (origin : TableOrigin) (members : List (String × Toml))
  | tables (items : List (List (String × Toml)))
  deriving Inhabited

namespace Toml

/-- The value under a key. -/
def member? (name : String) (members : List (String × Toml)) : Option Toml :=
  members.lookup name

/-- The value under a key is changed; a missing one counts as `none`. -/
def alter? (name : String) (change : Option Toml → Option Toml) :
    List (String × Toml) → Option (List (String × Toml))
  | [] => (change none).map fun value => [(name, value)]
  | (key, value) :: more =>
    if key = name then (change (some value)).map fun value => (key, value) :: more
    else (alter? name change more).map ((key, value) :: ·)

/-- The last element of a list is changed. -/
def changeLast? {α : Type} (change : α → Option α) : List α → Option (List α)
  | [] => none
  | [a] => (change a).map ([·])
  | a :: b :: more => (changeLast? change (b :: more)).map (a :: ·)

/-! ### Headers -/

/-- The members of the table that a header's path leads to are changed. Tables on the way that do
not exist are implied; of a list of tables the last one is meant. -/
def underHeader? (change : List (String × Toml) → Option (List (String × Toml))) :
    List String → List (String × Toml) → Option (List (String × Toml))
  | [], members => change members
  | name :: path, members =>
    alter? name (fun
      | none => (underHeader? change path []).map (.table .implied)
      | some (.table .inline _) => none
      | some (.table origin inner) => (underHeader? change path inner).map (.table origin)
      | some (.tables items) => (changeLast? (underHeader? change path) items).map .tables
      | some _ => none) members

/-- A table is opened by its header. It may not have been opened before. -/
def openTable? (name : String) : List (String × Toml) → Option (List (String × Toml)) :=
  alter? name fun
    | none => some (.table .header [])
    | some (.table .implied inner) => some (.table .header inner)
    | some _ => none

/-- A table is added to a list of tables by its header. -/
def addTable? (name : String) : List (String × Toml) → Option (List (String × Toml)) :=
  alter? name fun
    | none => some (.tables [[]])
    | some (.tables items) => some (.tables (items ++ [[]]))
    | some _ => none

/-! ### Keys -/

/-- A value is put under a new key. -/
def add? (name : String) (value : Toml) : List (String × Toml) → Option (List (String × Toml)) :=
  alter? name fun
    | none => some value
    | some _ => none

/-- A value is put under a key with dots. Tables on the way are made by the dots and may be added to
by dots only. -/
def addDotted? (value : Toml) (last : String) :
    List String → List (String × Toml) → Option (List (String × Toml))
  | [], members => add? last value members
  | name :: path, members =>
    alter? name (fun
      | none => (addDotted? value last path []).map (.table .dotted)
      | some (.table .dotted inner) => (addDotted? value last path inner).map (.table .dotted)
      | some (.table .implied inner) =>
        if path.isEmpty then none else (addDotted? value last path inner).map (.table .implied)
      | some (.tables items) =>
        if path.isEmpty then none else (changeLast? (addDotted? value last path) items).map .tables
      | some _ => none) members

end Toml

end OperatorBundle
