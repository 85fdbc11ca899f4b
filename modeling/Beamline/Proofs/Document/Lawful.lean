import Beamline.Proofs.Document.Elements
import Beamline.Proofs.Document.Items
import Beamline.Proofs.Validation.Correct

/-!
# The rules that every document keeps

* `Document.Lawful` : the rules, whatever policy the document was read under;
* `Document.Meets` : what a policy asks for besides;
* `Document.lawful_of_wellFormedObject` : a document with well-formed members is lawful;
* `Document.wellFormed_toJson` : the raw form of a lawful document is well formed under every policy
  that the document meets.
-/

namespace Beamline

open Validation

namespace Document

/-- The document defines an element or a lattice of that name. -/
def Defines (d : Document) (name : String) : Prop :=
  (∃ e ∈ d.elements, e.name = name) ∨ ∃ l ∈ d.lattices, l.name = name

/-- The lattice `a` refers to the lattice `b` at some depth. -/
def Mentions (d : Document) (a b : String) : Prop :=
  ∃ l ∈ d.lattices, l.name = a ∧ b ∈ l.references ∧ ∃ l' ∈ d.lattices, l'.name = b

/-- The rules that every document keeps. -/
structure Lawful (d : Document) : Prop where
  major : d.version.major = 3
  minor : d.version.minor < 2 ^ 32
  elements : ∀ e ∈ d.elements, e.Lawful
  elementNames : (d.elements.map (·.name)).Nodup
  latticeNames : (d.lattices.map (·.name)).Nodup
  distinct : ∀ e ∈ d.elements, ∀ l ∈ d.lattices, e.name ≠ l.name
  latticeNamed : ∀ l ∈ d.lattices, l.name ≠ ""
  groups : ∀ l ∈ d.lattices, ∀ g, Item.Within (.group g) l.items → g ≠ []
  defined : ∀ l ∈ d.lattices, ∀ name ∈ l.references, d.Defines name
  acyclic : ∀ name, ¬ Relation.TransGen d.Mentions name name
  root : ∀ name, d.root = some name → ∃ l ∈ d.lattices, l.name = name
  extraNames : (Table.keys d.extras).Nodup
  extras : ∀ m ∈ d.extras, m.1 ∉ documentKeys

/-- What a policy asks of a document besides the rules. -/
structure Meets (d : Document) (policy : Policy) : Prop where
  extras : policy.mode = .lenient ∨ 0 < d.version.minor ∨ d.extras = []
  named : policy.nesting = .inline → ∀ l ∈ d.lattices, ∀ name ∈ l.references,
    ∀ l' ∈ d.lattices, l'.name ≠ name
  inline : policy.nesting = .named → ∀ l ∈ d.lattices, ∀ g, ¬ Item.Within (.group g) l.items

variable {d : Document}

/-! ## Looking up -/

theorem Lawful.element?_of_mem (h : d.Lawful) {e : Element} (he : e ∈ d.elements) :
    d.element? e.name = some e :=
  find?_of_mem h.elementNames he

theorem Lawful.lattice?_of_mem (h : d.Lawful) {l : Lattice} (hl : l ∈ d.lattices) :
    d.lattice? l.name = some l :=
  find?_of_mem h.latticeNames hl

/-! ## Raw tables -/

theorem keys_elementTable : Table.keys d.elementTable = d.elements.map (·.name) := by
  simp [Table.keys, elementTable]

theorem keys_latticeTable : Table.keys d.latticeTable = d.lattices.map (·.name) := by
  simp [Table.keys, latticeTable]

theorem mem_keys_latticeTable {name : String} :
    name ∈ Table.keys d.latticeTable ↔ ∃ l ∈ d.lattices, l.name = name := by
  rw [keys_latticeTable, List.mem_map]

theorem mem_latticeTable {l : Lattice} (h : l ∈ d.lattices) :
    (l.name, .arr (Item.listToJson l.items)) ∈ d.latticeTable :=
  List.mem_map_of_mem (f := fun l : Lattice => (l.name, l.toJson)) h

/-- Raw lattices hold each other by name as the lattices do. -/
theorem nests_latticeTable (hnames : (d.lattices.map (·.name)).Nodup) :
    Nests d.latticeTable = d.Mentions := by
  funext a b
  apply propext
  unfold Nests Mentions
  rw [mem_keys_latticeTable]
  constructor
  · rintro ⟨items, hlookup, hoccurs, hb⟩
    obtain ⟨l, hl, heq⟩ := List.mem_map.1 (Table.mem_of_lookup hlookup)
    obtain ⟨rfl, hitems⟩ := Prod.mk.inj heq
    rw [← Json.arr.inj hitems, Item.occurs_str_iff] at hoccurs
    exact ⟨l, hl, rfl, hoccurs, hb⟩
  · rintro ⟨l, hl, rfl, href, hb⟩
    refine ⟨_, Table.lookup_of_mem ?_ (mem_latticeTable hl), Item.occurs_str_iff.2 href, hb⟩
    rw [keys_latticeTable]
    exact hnames

/-! ## From raw members to the rules -/

/-- A document is lawful if members that are well formed hold its raw lattices, the names of its
elements and its root. -/
theorem lawful_of_wellFormedObject {policy : Policy} {doc elements lattices : List (String × Json)}
    (h : WellFormedObject policy doc d.version elements lattices)
    (helements : Table.keys elements = d.elements.map (·.name))
    (hlattices : lattices = d.latticeTable) (hroot : doc.lookup "root" = d.root.map .str)
    (hlawful : ∀ e ∈ d.elements, e.Lawful)
    (helementNames : (d.elements.map (·.name)).Nodup)
    (hlatticeNames : (d.lattices.map (·.name)).Nodup)
    (hextraNames : (Table.keys d.extras).Nodup) (hextras : ∀ m ∈ d.extras, m.1 ∉ documentKeys) :
    d.Lawful := by
  subst hlattices
  have hlattice : ∀ l ∈ d.lattices, WellFormedItems policy.nesting
      (· ∈ Table.keys d.latticeTable) (Item.listToJson l.items) := by
    intro l hl
    obtain ⟨items, heq, hitems⟩ := (h.lattice _ _ (mem_latticeTable hl)).items
    rw [← Json.arr.inj heq] at hitems
    exact hitems
  refine ⟨h.major, ?_, hlawful, helementNames, hlatticeNames, fun e he l hl heq => ?_,
    fun l hl => (h.lattice _ _ (mem_latticeTable hl)).named, fun l hl g hg hnil => ?_,
    fun l hl name hname => ?_, ?_, fun name hname => ?_, hextraNames, hextras⟩
  · obtain ⟨text, -, -, minor, -, -, hminor⟩ := h.spelled
    exact hminor.value ▸ hminor.lt
  · apply h.distinct l.name (mem_keys_latticeTable.2 ⟨l, hl, rfl⟩)
    rw [helements, ← heq]
    exact List.mem_map_of_mem he
  · have hoccurs : Occurs (.arr (Item.listToJson g)) (Item.listToJson l.items) :=
      Item.occurs_arr_iff.2 ⟨g, rfl, hg⟩
    rcases (hlattice l hl).form _ hoccurs with ⟨s, hs⟩ | ⟨inner, hinner, hne⟩
    · cases hs
    · rw [hnil] at hinner
      cases hinner
      exact hne rfl
  · have hdefined := h.defined l.name _ (mem_latticeTable hl) name (Item.occurs_str_iff.2 hname)
    rcases hdefined with hin | hin
    · rw [helements] at hin
      exact .inl (List.mem_map.1 hin)
    · exact .inr (mem_keys_latticeTable.1 hin)
  · rw [← nests_latticeTable hlatticeNames]
    exact h.acyclic
  · apply mem_keys_latticeTable.1
    apply h.root name
    rw [hroot, hname]
    rfl

/-- Well-formed members show what the policy asked for. -/
theorem meets_of_wellFormedObject {policy : Policy} {doc elements lattices : List (String × Json)}
    (h : WellFormedObject policy doc d.version elements lattices)
    (hlattices : lattices = d.latticeTable) (hextras : ∀ m ∈ d.extras, m.1 ∉ documentKeys)
    (hdoc : d.extras ⊆ doc) : d.Meets policy := by
  subst hlattices
  have hlattice : ∀ l ∈ d.lattices, WellFormedItems policy.nesting
      (· ∈ Table.keys d.latticeTable) (Item.listToJson l.items) := by
    intro l hl
    obtain ⟨items, heq, hitems⟩ := (h.lattice _ _ (mem_latticeTable hl)).items
    rw [← Json.arr.inj heq] at hitems
    exact hitems
  refine ⟨?_, fun hn l hl name hname l' hl' heq => ?_, fun hn l hl g hg => ?_⟩
  · refine h.known.imp id fun hknown => hknown.imp id fun hall => ?_
    rw [List.eq_nil_iff_forall_not_mem]
    exact fun m hm => hextras m hm (hall m (hdoc hm))
  · exact (hlattice l hl).named hn name (Item.occurs_str_iff.2 hname)
      (mem_keys_latticeTable.2 ⟨l', hl', heq⟩)
  · exact (hlattice l hl).inline hn _ (Item.occurs_arr_iff.2 ⟨g, rfl, hg⟩)

/-! ## From the rules to raw members -/

/-- The known members of a document. -/
structure Members (d : Document) (doc : List (String × Json)) : Prop where
  version : doc.lookup "version" = some (.str d.version.text)
  title : doc.lookup "title" = d.title.map .str
  info : doc.lookup "info" = d.info.map .str
  root : doc.lookup "root" = d.root.map .str
  elements : doc.lookup "elements" = some (.obj d.elementTable)
  lattices : doc.lookup "lattices" = some (.obj d.latticeTable)

theorem members_members (hextras : ∀ m ∈ d.extras, m.1 ∉ documentKeys) :
    d.Members d.members := by
  have hnone : ∀ key ∈ documentKeys, d.extras.lookup key = none := by
    intro key hkey
    rw [Table.lookup_eq_none]
    intro h
    obtain ⟨v, hv⟩ := Table.mem_keys.1 h
    exact hextras _ hv hkey
  have htitle := hnone "title" (by decide)
  have hinfo := hnone "info" (by decide)
  have hroot := hnone "root" (by decide)
  obtain ⟨version, title, info, root, elements, lattices, extras⟩ := d
  dsimp only at htitle hinfo hroot
  constructor <;> cases title <;> cases info <;> cases root <;>
    simp [members, List.lookup_cons, htitle, hinfo, hroot]

theorem mem_members {m : String × Json} (h : m ∈ d.members) :
    m.1 ∈ documentKeys ∨ m ∈ d.extras := by
  obtain ⟨version, title, info, root, elements, lattices, extras⟩ := d
  simp only [members, List.mem_append, List.mem_cons, List.mem_map, List.not_mem_nil,
    or_false] at h
  rcases h with ((((rfl | ⟨s, -, rfl⟩) | ⟨s, -, rfl⟩) | ⟨s, -, rfl⟩) | rfl | rfl) | h
  · exact .inl (by simp [documentKeys])
  · exact .inl (by simp [documentKeys])
  · exact .inl (by simp [documentKeys])
  · exact .inl (by simp [documentKeys])
  · exact .inl (by simp [documentKeys])
  · exact .inl (by simp [documentKeys])
  · exact .inr h

/-- The raw form of a lawful document is well formed under every policy that it meets. -/
theorem wellFormed_toJson {policy : Policy} (h : d.Lawful) (hmeets : d.Meets policy) :
    WellFormed policy d.toJson := by
  have hmembers := members_members h.extras
  refine ⟨d.members, d.version, d.elementTable, d.latticeTable, rfl, ⟨_, hmembers.version, ?_⟩,
    h.major, hmembers.elements, hmembers.lattices, ?_, ?_, ?_, ?_, ?_, ?_, ?_, ?_⟩
  · -- the version
    rw [← Version.parse?_eq_some_iff]
    exact Version.parse?_text (by rw [h.major]; decide) h.minor
  · -- the texts
    intro key hkey v hv
    have hopt : ∃ o : Option String, d.members.lookup key = o.map .str := by
      simp only [List.mem_cons, List.not_mem_nil, or_false] at hkey
      rcases hkey with rfl | rfl | rfl
      · exact ⟨_, hmembers.title⟩
      · exact ⟨_, hmembers.info⟩
      · exact ⟨_, hmembers.root⟩
    obtain ⟨o, ho⟩ := hopt
    rw [ho] at hv
    obtain ⟨s, -, hs⟩ := Option.map_eq_some_iff.1 hv
    exact ⟨s, hs.symm⟩
  · -- the unknown keys
    refine hmeets.extras.imp id fun hx => hx.imp id fun hnil m hm => ?_
    refine (mem_members hm).resolve_right ?_
    rw [hnil]
    exact List.not_mem_nil
  · -- the elements
    intro name entry hmem
    obtain ⟨e, he, heq⟩ := List.mem_map.1 hmem
    obtain ⟨rfl, rfl⟩ := Prod.mk.inj heq
    exact Element.wellFormed_toJson (h.elements e he) _
  · -- the lattices
    intro name entry hmem
    obtain ⟨l, hl, heq⟩ := List.mem_map.1 hmem
    obtain ⟨rfl, rfl⟩ := Prod.mk.inj heq
    refine ⟨h.latticeNamed l hl, _, rfl, ?_, ?_, ?_⟩
    · intro v hv
      obtain ⟨i, rfl, hi⟩ := Item.occurs_listToJson_iff.1 hv
      cases i with
      | name s => exact .inl ⟨s, rfl⟩
      | group g =>
        refine .inr ⟨_, rfl, fun hnil => h.groups l hl g hi ?_⟩
        cases g with
        | nil => rfl
        | cons i g => cases hnil
    · intro hn s hs
      rw [mem_keys_latticeTable]
      rintro ⟨l', hl', heq⟩
      exact hmeets.named hn l hl s (Item.occurs_str_iff.1 hs) l' hl' heq
    · intro hn inner hi
      obtain ⟨g, -, hg⟩ := Item.occurs_arr_iff.1 hi
      exact hmeets.inline hn l hl g hg
  · -- no name stands in both tables, and all that are referred to stand in one
    intro name hlat hel
    obtain ⟨l, hl, rfl⟩ := mem_keys_latticeTable.1 hlat
    rw [keys_elementTable] at hel
    obtain ⟨e, he, heq⟩ := List.mem_map.1 hel
    exact h.distinct e he l hl heq
  · intro name items hmem s hs
    obtain ⟨l, hl, heq⟩ := List.mem_map.1 hmem
    obtain ⟨rfl, hitems⟩ := Prod.mk.inj heq
    rw [← Json.arr.inj hitems, Item.occurs_str_iff] at hs
    rw [keys_elementTable, List.mem_map, mem_keys_latticeTable]
    exact h.defined l hl s hs
  · -- the root
    intro name hname
    rw [hmembers.root] at hname
    obtain ⟨s, hs, heq⟩ := Option.map_eq_some_iff.1 hname
    cases heq
    exact mem_keys_latticeTable.2 (h.root name hs)
  · rw [nests_latticeTable h.latticeNames]
    exact h.acyclic

end Document

end Beamline
