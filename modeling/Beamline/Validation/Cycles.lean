import Beamline.Validation.Finding

/-!
# Cycles of lattices

A lattice may hold others by name, but not itself. The search walks the names depth first and keeps
the path from where it started; a name that is met again on the path closes a cycle.

* `mentions` : the lattices that an entry names;
* `search` : the cycles met from every lattice in turn, each as the path from its first name back
  to it;
* `cycleFindings` : the same as findings.
-/

namespace Beamline.Validation

mutual

/-- The strings in a value that is an item of a lattice. -/
def itemNames : Json → List String
  | .str s => [s]
  | .arr items => itemListNames items
  | _ => []

/-- The strings in a list of items, at any depth. -/
def itemListNames : List Json → List String
  | [] => []
  | v :: rest => itemNames v ++ itemListNames rest

end

/-- The lattices that the entry of the lattice `name` names, in order. -/
def mentions (lattices : List (String × Json)) (name : String) : List String :=
  match (lattices.lookup name).bind Json.items? with
  | none => []
  | some items => (itemListNames items).filter (Table.has lattices)

/-- The lattices that are finished and the cycles met so far. -/
structure Search where
  done : List String
  cycles : List (List String)

/-- Walks from `name`, reached by `path`, at most `room` names deep. A finished lattice is not
walked again; a name on the path closes a cycle. -/
def visit (children : String → List String) :
    (room : Nat) → (path : List String) → (name : String) → Search → Search
  | 0, _, _, s => s
  | room + 1, path, name, s =>
    let path := path ++ [name]
    let s := (children name).foldl (fun s child =>
      if s.done.contains child then s
      else if path.contains child then
        { s with cycles := s.cycles ++ [path.dropWhile (· != child) ++ [child]] }
      else visit children room path child s) s
    { s with done := name :: s.done }

/-- Walks from every name that is not finished when its turn comes. No path is longer than the
names are many. -/
def search (children : String → List String) (names : List String) : List (List String) :=
  let s := names.foldl (fun s name =>
    if s.done.contains name then s else visit children names.length [] name s) ⟨[], []⟩
  s.cycles

def cycleFindings (lattices : List (String × Json)) : List Finding :=
  (search (mentions lattices) (Table.keys lattices)).map fun cycle =>
    ⟨["lattices", cycle.headD ""], .cyclic cycle⟩

end Beamline.Validation
