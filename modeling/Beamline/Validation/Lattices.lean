import Beamline.Validation.Finding

/-!
# The entries of lattices

* `walk` : the items of an array with their places, groups before their items;
* `latticeFindings` : what is wrong with one entry under a nesting policy;
* `nameFindings` : the names in one entry that nothing defines, and a name defined twice;
* `rootFindings` : what is wrong with the choice of the root.
-/

namespace Beamline.Validation

mutual

/-- The items below `v`, which stands at `place`. -/
def inner (place : Pointer) : Json → List (Pointer × Json)
  | .arr items => walkFrom place 0 items
  | _ => []

/-- The items of the rest of an array that starts at index `i`, each before the items in it. -/
def walkFrom (place : Pointer) (i : Nat) : List Json → List (Pointer × Json)
  | [] => []
  | v :: rest =>
    let here := place ++ [Pointer.index i]
    (here, v) :: inner here v ++ walkFrom place (i + 1) rest

end

/-- All items of an array at any depth, each before the items in it. -/
def walk (place : Pointer) (items : List Json) : List (Pointer × Json) :=
  walkFrom place 0 items

/-- What is wrong with one item, `isLattice` telling the names of lattices. -/
def itemComplaint? (nesting : Nesting) (isLattice : String → Bool) (item : Json) :
    Option Complaint :=
  match item with
  | .str name => if !nesting.allowsNamed && isLattice name then some (.namedNesting name) else none
  | .arr items =>
    if !nesting.allowsInline then some .inlineNesting
    else if items.isEmpty then some .emptyGroup
    else none
  | _ => some .notItem

/-- What is wrong with the entry of the lattice `name`. -/
def latticeFindings (nesting : Nesting) (isLattice : String → Bool) (name : String)
    (entry : Json) : List Finding :=
  let place := ["lattices", name]
  let nameFindings : List Finding := if name.isEmpty then [⟨place, .namelessLattice⟩] else []
  let entryFindings : List Finding :=
    match entry.items? with
    | none => [⟨place, .notSequence name⟩]
    | some items =>
      (walk place items).filterMap fun (spot, item) =>
        (itemComplaint? nesting isLattice item).map fun c => ⟨spot, c⟩
  nameFindings ++ entryFindings

/-- The names in the entry of the lattice `name` that nothing defines, and the name itself if an
element has it too. -/
def nameFindings (isElement isLattice : String → Bool) (name : String) (entry : Json) :
    List Finding :=
  let place := ["lattices", name]
  let clash : List Finding := if isElement name then [⟨place, .nameClash name⟩] else []
  let dangling : List Finding :=
    (walk place (entry.items?.getD [])).filterMap fun (spot, item) =>
      item.text?.bind fun n =>
        if isElement n || isLattice n then none else some ⟨spot, .undefinedName n name⟩
  clash ++ dangling

/-- What is wrong with the choice of the root. -/
def rootFindings (isElement isLattice : String → Bool) (root : Option Json) : List Finding :=
  match root.bind Json.text? with
  | none => []
  | some name =>
    if isLattice name then []
    else if isElement name then [⟨["root"], .rootIsElement name⟩]
    else [⟨["root"], .undefinedRoot name⟩]

end Beamline.Validation
