/-!
# TOML tables

* `Toml.Value` : a value, with as much of it as settings can ask for;
* `Toml.Tree` : a table in the making, which knows how each part of it came about. What was written
  as a value is closed, and a table that a header or a dotted key made can be extended only in some
  ways;
* `Tree.assign`, `Tree.openTable`, `Tree.openRow` : a key with its value, a header, the header of
  one more table in an array.
-/

namespace Beamline.Toml

/-- A value of a TOML text. -/
inductive Value where
  | text (s : String)
  | integer (digits : String)
  | float (digits : String)
  | boolean (b : Bool)
  | date
  | array (items : List Value)
  | table (entries : List (String × Value))

/-- How a table came about: as the surroundings of a header, by its own header, by a dotted key. -/
inductive Origin where
  | implied
  | header
  | dotted
  deriving DecidableEq, Repr

/-- A part of a table in the making. -/
inductive Tree where
  | leaf (v : Value)
  | table (origin : Origin) (entries : List (String × Tree))
  | rows (tables : List (List (String × Tree)))

namespace Tree

/-- The entries of a table in the making. -/
abbrev Entries := List (String × Tree)

/-- The entries with the part under `key` replaced by `t`. -/
def replace (entries : Entries) (key : String) (t : Tree) : Entries :=
  entries.map fun e => if e.1 == key then (key, t) else e

/-- Gives the dotted key `path` a value. The key must be free, and the table around it must have
been made by dotted keys, unless the key is not dotted. -/
def assign (entries : Entries) (path : List String) (v : Value) (inside : Bool := true) :
    Option Entries :=
  match path with
  | [] => none
  | [key] =>
    if inside && (entries.lookup key).isNone then some (entries ++ [(key, .leaf v)]) else none
  | key :: path =>
    match entries.lookup key with
    | none => (assign [] path v).map fun inner => entries ++ [(key, .table .dotted inner)]
    | some (.table origin inner) =>
      if origin = .header then none
      else
        (assign inner path v (origin = .dotted)).map fun inner =>
          replace entries key (.table origin inner)
    | some _ => none

/-- Changes the table that the header `path` leads to by `f`. -/
def change (f : Entries → Option Entries) (entries : Entries) (path : List String) :
    Option Entries :=
  match path with
  | [] => f entries
  | key :: path =>
    match entries.lookup key with
    | none => (change f [] path).map fun inner => entries ++ [(key, .table .implied inner)]
    | some (.table origin inner) =>
      (change f inner path).map fun inner => replace entries key (.table origin inner)
    | some (.rows tables) =>
      (change f (tables.getLast?.getD []) path).map fun last =>
        replace entries key (.rows (tables.dropLast ++ [last]))
    | some (.leaf _) => none

/-- Makes the table `key`, or gives an implied one its header. -/
def openTable (key : String) (entries : Entries) : Option Entries :=
  match entries.lookup key with
  | none => some (entries ++ [(key, .table .header [])])
  | some (.table .implied inner) => some (replace entries key (.table .header inner))
  | some _ => none

/-- Adds a table to the array `key`, or starts one. -/
def openRow (key : String) (entries : Entries) : Option Entries :=
  match entries.lookup key with
  | none => some (entries ++ [(key, .rows [[]])])
  | some (.rows tables) => some (replace entries key (.rows (tables ++ [[]])))
  | some _ => none

mutual

/-- The value that a part has in the end. -/
def value : Tree → Value
  | .leaf v => v
  | .table _ entries => .table (values entries)
  | .rows tables => .array (rowValues tables)

/-- The values of the entries of a table. -/
def values : Entries → List (String × Value)
  | [] => []
  | (key, t) :: rest => (key, value t) :: values rest

/-- The tables of an array as values. -/
def rowValues : List Entries → List Value
  | [] => []
  | t :: rest => .table (values t) :: rowValues rest

end

end Tree

end Beamline.Toml
