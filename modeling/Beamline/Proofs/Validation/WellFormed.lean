import Beamline.Element.Kind
import Beamline.Policy
import Beamline.Proofs.Version
import Mathlib.Logic.Relation

/-!
# Well-formed documents

What a raw document has to be, said without any search or walk.

* `Form.Fits`, `WellFormedElement` : the entry of an element;
* `Occurs`, `WellFormedItems` : the items of a lattice at any depth;
* `Nests` : one lattice holds another by its name;
* `WellFormedObject`, `WellFormed` : a document as a whole;
* `WellShapedObject`, `WellShaped` : a document that is well formed but for names that it does not
  define and lattices that hold themselves.
-/

namespace Beamline

/-- A value has the form that a parameter asks for. -/
def Form.Fits : Form → Json → Prop
  | number, v => ∃ n, v = .num n
  | text, v => ∃ s, v = .str s
  | numbers, v => ∃ items, v = .arr items ∧ ∀ item ∈ items, ∃ n, item = .num n

namespace Validation

/-! ## Elements -/

/-- The parameters of an element of kind `k`; `lenient` allows those that the kind does not have. -/
structure WellFormedParameters (lenient : Prop) (k : Kind) (params : List (String × Json)) :
    Prop where
  required : ∀ s ∈ k.slots, s.required → ∃ v, (s.parameter.name, v) ∈ params
  fits : ∀ s ∈ k.slots, ∀ v, (s.parameter.name, v) ∈ params → s.parameter.form.Fits v
  length : ∀ s ∈ k.slots, s.parameter = .length → ∀ n, (s.parameter.name, .num n) ∈ params →
    ¬ n.toFloat < 0
  known : lenient ∨ ∀ m ∈ params, ∃ s ∈ k.slots, s.parameter.name = m.1

/-- The entry of the element `name`: a pair of a kind and its parameters. -/
structure WellFormedElement (lenient : Prop) (name : String) (entry : Json) : Prop where
  named : name ≠ ""
  pair : ∃ (k : Kind) (params : List (String × Json)), entry = .arr [.str k.tag, .obj params] ∧
    WellFormedParameters lenient k params

/-! ## Lattices -/

/-- A value is an item of a list of items or, at any depth, of an array among them. -/
inductive Occurs (v : Json) : List Json → Prop where
  | here {items : List Json} : v ∈ items → Occurs v items
  | inside {items inner : List Json} : .arr inner ∈ items → Occurs v inner → Occurs v items

/-- The items of a lattice: names and arrays that are not empty, as far as the policy allows
them. -/
structure WellFormedItems (nesting : Nesting) (isLattice : String → Prop) (items : List Json) :
    Prop where
  form : ∀ v, Occurs v items → (∃ s, v = .str s) ∨ ∃ inner, v = .arr inner ∧ inner ≠ []
  named : nesting = .inline → ∀ s, Occurs (.str s) items → ¬ isLattice s
  inline : nesting = .named → ∀ inner, ¬ Occurs (.arr inner) items

/-- The entry of the lattice `name`. -/
structure WellFormedLattice (nesting : Nesting) (isLattice : String → Prop) (name : String)
    (entry : Json) : Prop where
  named : name ≠ ""
  items : ∃ items, entry = .arr items ∧ WellFormedItems nesting isLattice items

/-- The lattice `a` mentions the lattice `b`. -/
def Nests (lattices : List (String × Json)) (a b : String) : Prop :=
  ∃ items, lattices.lookup a = some (.arr items) ∧ Occurs (.str b) items ∧ b ∈ Table.keys lattices

/-! ## Documents -/

/-- The keys that a document may have. -/
def documentKeys : List String := ["version", "title", "info", "root", "elements", "lattices"]

/-- A document with members `doc` of version `version` that defines `elements` and `lattices`. -/
structure WellFormedObject (policy : Policy) (doc : List (String × Json)) (version : Version)
    (elements lattices : List (String × Json)) : Prop where
  spelled : ∃ text, doc.lookup "version" = some (.str text) ∧ version.Spelled text
  major : version.major = 3
  elementTable : doc.lookup "elements" = some (.obj elements)
  latticeTable : doc.lookup "lattices" = some (.obj lattices)
  texts : ∀ key ∈ ["title", "info", "root"], ∀ v, doc.lookup key = some v → ∃ s, v = .str s
  known : policy.mode = .lenient ∨ 0 < version.minor ∨ ∀ m ∈ doc, m.1 ∈ documentKeys
  element : ∀ name entry, (name, entry) ∈ elements →
    WellFormedElement (policy.mode = .lenient ∨ 0 < version.minor) name entry
  lattice : ∀ name entry, (name, entry) ∈ lattices →
    WellFormedLattice policy.nesting (· ∈ Table.keys lattices) name entry
  distinct : ∀ name ∈ Table.keys lattices, name ∉ Table.keys elements
  defined : ∀ name items, (name, .arr items) ∈ lattices → ∀ s, Occurs (.str s) items →
    s ∈ Table.keys elements ∨ s ∈ Table.keys lattices
  root : ∀ name, doc.lookup "root" = some (.str name) → name ∈ Table.keys lattices
  acyclic : ∀ name, ¬ Relation.TransGen (Nests lattices) name name

/-- A value that describes a document. -/
def WellFormed (policy : Policy) (v : Json) : Prop :=
  ∃ doc version elements lattices, v = .obj doc ∧
    WellFormedObject policy doc version elements lattices

/-- The same of the keys and the single entries only, whatever names stand in them. -/
structure WellFormedEntries (policy : Policy) (doc : List (String × Json)) (version : Version)
    (elements lattices : List (String × Json)) : Prop where
  spelled : ∃ text, doc.lookup "version" = some (.str text) ∧ version.Spelled text
  major : version.major = 3
  elementTable : doc.lookup "elements" = some (.obj elements)
  latticeTable : doc.lookup "lattices" = some (.obj lattices)
  texts : ∀ key ∈ ["title", "info", "root"], ∀ v, doc.lookup key = some v → ∃ s, v = .str s
  known : policy.mode = .lenient ∨ 0 < version.minor ∨ ∀ m ∈ doc, m.1 ∈ documentKeys
  element : ∀ name entry, (name, entry) ∈ elements →
    WellFormedElement (policy.mode = .lenient ∨ 0 < version.minor) name entry
  lattice : ∀ name entry, (name, entry) ∈ lattices →
    WellFormedLattice policy.nesting (· ∈ Table.keys lattices) name entry

theorem WellFormedObject.entries {policy : Policy} {doc : List (String × Json)} {version : Version}
    {elements lattices : List (String × Json)}
    (h : WellFormedObject policy doc version elements lattices) :
    WellFormedEntries policy doc version elements lattices :=
  ⟨h.spelled, h.major, h.elementTable, h.latticeTable, h.texts, h.known, h.element, h.lattice⟩

/-- A document whose entries are well formed, in which no name stands for an element where it must
stand for a lattice. -/
structure WellShapedObject (policy : Policy) (doc : List (String × Json)) (version : Version)
    (elements lattices : List (String × Json)) : Prop extends
    WellFormedEntries policy doc version elements lattices where
  distinct : ∀ name ∈ Table.keys lattices, name ∉ Table.keys elements
  root : ∀ name, doc.lookup "root" = some (.str name) → name ∉ Table.keys elements

/-- A value that describes a document, but for undefined names and cycles. -/
def WellShaped (policy : Policy) (v : Json) : Prop :=
  ∃ doc version elements lattices, v = .obj doc ∧
    WellShapedObject policy doc version elements lattices

end Validation

end Beamline
