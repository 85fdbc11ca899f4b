/-!
# Lattices

A lattice is a named sequence of items. An item is the name of an element or of another lattice, or
a group of items written in place.

* `Item.names`, `Lattice.references` : the names in order of appearance, groups included.
-/

namespace Beamline

inductive Item where
  | name (s : String)
  | group (items : List Item)

namespace Item

mutual

/-- The names in an item in order of appearance. -/
def names : Item → List String
  | .name s => [s]
  | .group items => namesOf items

/-- The names in a list of items in order of appearance. -/
def namesOf : List Item → List String
  | [] => []
  | i :: rest => names i ++ namesOf rest

end

mutual

/-- Whether two items are the same. -/
def same : Item → Item → Bool
  | .name s, .name t => s == t
  | .group xs, .group ys => sameItems xs ys
  | _, _ => false

/-- Whether two lists of items are the same. -/
def sameItems : List Item → List Item → Bool
  | [], [] => true
  | x :: xs, y :: ys => same x y && sameItems xs ys
  | _, _ => false

end

end Item

/-- A named sequence of items. -/
structure Lattice where
  name : String
  items : List Item

namespace Lattice

/-- The names that a lattice mentions, in order of appearance. -/
def references (l : Lattice) : List String :=
  Item.namesOf l.items

/-- Whether two lattices have the same name and the same items. -/
def same (a b : Lattice) : Bool :=
  a.name == b.name && Item.sameItems a.items b.items

end Lattice

end Beamline
