import Beamline.Document.Basic

/-!
# The order of dependency

* `Document.inDependencyOrder` : the lattices of a document, each behind all lattices that it names.
  The order of declaration is left only for the sake of a lattice that comes earlier.
-/

namespace Beamline.Document

/-- The names of the lattices that have been seen, and the lattices that have been listed. -/
structure Listing where
  seen : List String
  listed : List Lattice

/-- Lists a lattice by `list`, unless it has been seen. -/
def Listing.enter (list : Listing → Lattice → Listing) (s : Listing) (l : Lattice) : Listing :=
  if s.seen.contains l.name then s else list { s with seen := l.name :: s.seen } l

/-- Lists what a lattice names, as far as it has not been seen, and then the lattice itself. -/
def listLattice (d : Document) : (room : Nat) → Listing → Lattice → Listing
  | 0, s, _ => s
  | room + 1, s, l =>
    let s := (l.references.filterMap d.lattice?).foldl (Listing.enter (listLattice d room)) s
    { s with listed := s.listed ++ [l] }

/-- The lattices of a document, each behind all lattices that it names. -/
def inDependencyOrder (d : Document) : List Lattice :=
  (d.lattices.foldl (Listing.enter (listLattice d d.lattices.length)) ⟨[], []⟩).listed

end Beamline.Document
