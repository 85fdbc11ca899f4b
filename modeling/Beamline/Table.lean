/-!
# Tables

A table is a list of entries in the order in which their keys first came. `List.lookup` reads it;
here are the operations that change it.

* `Table.put` : the last value of a key wins and stays where the key first stood;
* `Table.ofList` : entries put one after the other;
* `Table.take` : an entry leaves and the last entry moves into its place.
-/

namespace Beamline.Table

variable {κ α : Type} [BEq κ]

def keys (t : List (κ × α)) : List κ :=
  t.map Prod.fst

def has (t : List (κ × α)) (key : κ) : Bool :=
  t.any fun e => e.1 == key

/-- Gives `key` the value `v`, at the place where `key` stands or at the end. -/
def put (key : κ) (v : α) : List (κ × α) → List (κ × α)
  | [] => [(key, v)]
  | e :: t => if e.1 == key then (e.1, v) :: t else e :: put key v t

/-- The table of `entries` put one after the other. -/
def ofList (entries : List (κ × α)) : List (κ × α) :=
  entries.foldl (fun t e => put e.1 e.2 t) []

/-- The table without the entry of `key`; the last entry moves into the place that falls free. -/
def drop (key : κ) : List (κ × α) → List (κ × α)
  | [] => []
  | e :: t =>
    if e.1 == key then
      match t.getLast? with
      | none => []
      | some l => l :: t.dropLast
    else e :: drop key t

/-- The value of `key` and the table without it, if it has one. -/
def take? (key : κ) (t : List (κ × α)) : Option (α × List (κ × α)) :=
  (t.lookup key).map (·, drop key t)

end Beamline.Table
