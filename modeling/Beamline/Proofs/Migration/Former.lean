import Beamline.Migration
import Beamline.Proofs.Table
import Beamline.Proofs.Validation.WellFormed

/-!
# Documents of versions 0 and 1

Before version 2 a document had one main lattice beside its further ones, descriptions where there
are remarks now, and its own names for kinds; before version 1 the kind was a parameter.

* `FormerEntry`, `FormerParameters`, `FormerElement` : the entry of an element;
* `FormerItems`, `formerLines` : the lattices of a document, the main one last;
* `FormerObject` : a well-formed document of version 0 or 1;
* `FormerFlattens` : what the items of a lattice stand for in its tables, which is determined.
-/

namespace Beamline.Migration

open Validation

/-! ## Elements -/

/-- The entry of an element in version `n`, with the name of its kind and its parameters. -/
inductive FormerEntry : (n : Nat) → (tag : String) → (params : List (String × Json)) → Json → Prop
  | embedded {tag : String} {entry : List (String × Json)} :
    entry.lookup "type" = some (.str tag) →
    FormerEntry 0 tag (entry.filter fun m => m.1 != "type") (.obj entry)
  | paired {tag : String} {params : List (String × Json)} :
    FormerEntry 1 tag params (.arr [.str tag, .obj params])

/-- The parameters of an element of kind `k` : those of the kind, a description and no remark. -/
structure FormerParameters (k : Kind) (params : List (String × Json)) : Prop where
  own : WellFormedParameters False k (params.filter fun m => m.1 != "description")
  description : ∀ v, ("description", v) ∈ params → ∃ s, v = .str s
  unremarked : Parameter.info.name ∉ Table.keys params

/-- The entry of the element `name` in version `n`. -/
structure FormerElement (n : Nat) (name : String) (entry : Json) : Prop where
  named : name ≠ ""
  content : ∃ tag params k, FormerEntry n tag params entry ∧ formerTags.lookup tag = some k ∧
    FormerParameters k params

/-! ## Lattices -/

/-- The items of a lattice: names and arrays that are not empty. -/
def FormerItems (items : List Json) : Prop :=
  ∀ v, Occurs v items → (∃ s, v = .str s) ∨ ∃ inner, v = .arr inner ∧ inner ≠ []

/-- The further lattices of a document, and behind them the main one under the name that it gets. -/
def formerLines (subs : List (String × Json)) (main : List Json) : List (String × Json) :=
  subs ++ [(mainLattice, .arr main)]

/-! ## Documents -/

/-- The keys that a document of version 0 or 1 may have. -/
def formerKeys : List String :=
  ["version", "name", "description", "elements", "sub_lattices", "lattice"]

/-- A document with members `doc` of version `n`, which is 0 or 1, that defines `elements`, the
further lattices `subs` and the main lattice. -/
structure FormerObject (n : Nat) (doc elements subs : List (String × Json)) (main : List Json) :
    Prop where
  early : n ≤ 1
  version : doc.lookup "version" = none ∧ n = 0 ∨
    ∃ text minor, doc.lookup "version" = some (.str text) ∧ (Version.mk n minor).Spelled text
  known : ∀ m ∈ doc, m.1 ∈ formerKeys
  texts : ∀ key ∈ ["name", "description"], ∀ v, doc.lookup key = some v → ∃ s, v = .str s
  elementTable : doc.lookup "elements" = some (.obj elements)
  subTable : doc.lookup "sub_lattices" = none ∧ subs = [] ∨
    doc.lookup "sub_lattices" = some (.obj subs)
  mainLine : doc.lookup "lattice" = some (.arr main)
  element : ∀ name entry, (name, entry) ∈ elements → FormerElement n name entry
  line : ∀ name entry, (name, entry) ∈ subs → name ≠ "" ∧ ∃ items, entry = .arr items
  items : ∀ name items, (name, .arr items) ∈ formerLines subs main → FormerItems items
  distinct : ∀ name ∈ Table.keys subs, name ∉ Table.keys elements
  reserved : mainLattice ∉ Table.keys elements ∧ mainLattice ∉ Table.keys subs
  defined : ∀ name items, (name, .arr items) ∈ formerLines subs main → ∀ s, Occurs (.str s) items →
    s ∈ Table.keys elements ∨ s ∈ Table.keys subs
  acyclic : ∀ name, ¬ Relation.TransGen (Nests subs) name name

/-! ## What lattices stand for -/

/-- What items stand for in the tables of a document: the name of an element for its entry, the name
of a lattice and an array for what their items stand for, one after the other. -/
inductive FormerFlattens (elements subs : List (String × Json)) :
    List Json → List (String × Json) → Prop
  | nil : FormerFlattens elements subs [] []
  | element {m : String × Json} {rest : List Json} {ms : List (String × Json)} (hm : m ∈ elements)
      (hrest : FormerFlattens elements subs rest ms) :
      FormerFlattens elements subs (.str m.1 :: rest) (m :: ms)
  | lattice {name : String} {items rest : List Json} {inner ms : List (String × Json)}
      (hline : (name, .arr items) ∈ subs) (hinner : FormerFlattens elements subs items inner)
      (hrest : FormerFlattens elements subs rest ms) :
      FormerFlattens elements subs (.str name :: rest) (inner ++ ms)
  | group {items rest : List Json} {inner ms : List (String × Json)}
      (hinner : FormerFlattens elements subs items inner)
      (hrest : FormerFlattens elements subs rest ms) :
      FormerFlattens elements subs (.arr items :: rest) (inner ++ ms)

/-- In tables without repeated names, items stand for one sequence of entries. -/
theorem FormerFlattens.unique {elements subs : List (String × Json)}
    (helements : (Table.keys elements).Nodup) (hsubs : (Table.keys subs).Nodup)
    (hdistinct : ∀ name ∈ Table.keys subs, name ∉ Table.keys elements) {items : List Json}
    {ms ms' : List (String × Json)} (h : FormerFlattens elements subs items ms)
    (h' : FormerFlattens elements subs items ms') : ms = ms' := by
  induction h generalizing ms' with
  | nil =>
    cases h'
    rfl
  | @element m rest ms hm _ ih =>
    generalize hitems : Json.str m.1 :: rest = items at h'
    cases h' with
    | nil => cases hitems
    | @element m' rest' ms' hm' hrest' =>
      obtain ⟨hname, rfl⟩ : m.1 = m'.1 ∧ rest = rest' := by simpa using hitems
      have hentry : elements.lookup m.1 = some m.2 := Table.lookup_of_mem helements hm
      rw [hname, Table.lookup_of_mem helements hm'] at hentry
      rw [ih hrest', Prod.ext hname (Option.some.inj hentry).symm]
    | @lattice name items rest' inner ms' hline _ _ =>
      obtain ⟨rfl, -⟩ : m.1 = name ∧ rest = rest' := by simpa using hitems
      exact absurd (Table.mem_keys_of_mem hm) (hdistinct _ (Table.mem_keys.2 ⟨_, hline⟩))
    | group => cases hitems
  | @lattice name items rest inner ms hline _ _ ihinner ih =>
    generalize heq : Json.str name :: rest = all at h'
    cases h' with
    | nil => cases heq
    | @element m' rest' ms' hm' _ =>
      obtain ⟨rfl, -⟩ : name = m'.1 ∧ rest = rest' := by simpa using heq
      exact absurd (Table.mem_keys_of_mem hm') (hdistinct _ (Table.mem_keys.2 ⟨_, hline⟩))
    | @lattice name' items' rest' inner' ms' hline' hinner' hrest' =>
      obtain ⟨rfl, rfl⟩ : name = name' ∧ rest = rest' := by simpa using heq
      have hentry := Table.lookup_of_mem hsubs hline
      rw [Table.lookup_of_mem hsubs hline'] at hentry
      cases hentry
      rw [ihinner hinner', ih hrest']
    | group => cases heq
  | @group items rest inner ms _ _ ihinner ih =>
    cases h' with
    | group hinner' hrest' => rw [ihinner hinner', ih hrest']

end Beamline.Migration
