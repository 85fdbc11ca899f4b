import Beamline.Proofs.Deck.Reader
import Beamline.Proofs.Deck.Session

/-!
# Writing decks and reading MAD-X decks

* `Document.inDeck` : what a deck keeps of a document;
* `Document.Lawful.inDeck`, `Document.Portable.inDeck` : it keeps the rules, and can be written;
* `Document.readDeck_of_cut`, `Document.readDeck_of_statements` : it is what is read from the
  statements of the document;
* `Document.writeDeck_inDeck` : it is written as the document was;
* `Document.readDeck_writeDeck` : what has been written is read back.
-/

namespace Beamline

open Deck Validation

/-- An element without its remark. -/
def Element.bare (e : Element) : Element :=
  { e with info := none }

/-- A lattice whose groups are replaced by their items. -/
def Lattice.spliced (l : Lattice) : Lattice :=
  ⟨l.name, l.references.map .name⟩

theorem Lattice.references_spliced (l : Lattice) : l.spliced.references = l.references :=
  Item.namesOf_map_name l.references

namespace Document

/-- What a deck keeps of a document whose root is `root`. -/
def inDeck (d : Document) (root : String) : Document where
  version := .current
  title := some (d.title.getD root)
  info := none
  root := some root
  elements := d.elements.map .bare
  lattices := d.inDependencyOrder.map .spliced
  extras := []

variable {d : Document} {root : String} {dl : Dialect}

/-! ## What a deck keeps is a document -/

theorem kept_madx (d : Document) : d.kept .madx = d := by
  have helements : d.elements.map (·.kept .madx) = d.elements := by
    conv_rhs => rw [← List.map_id d.elements]
    rfl
  rw [kept, helements]

/-- What a deck keeps of the parameters keeps the rules. -/
theorem Lawful.kept (h : d.Lawful) (dl : Dialect) : (d.kept dl).Lawful := by
  have hnames : (d.elements.map (·.kept dl)).map (·.name) = d.elements.map (·.name) :=
    List.map_map ..
  have hdefines : ∀ {name}, (d.kept dl).Defines name ↔ d.Defines name := by
    intro name
    unfold Defines
    simp [Document.kept, Element.kept]
  exact {
    major := h.major
    minor := h.minor
    elements := by
      intro e he
      obtain ⟨e', he', rfl⟩ := List.mem_map.1 he
      exact (h.elements e' he').kept dl
    elementNames := show ((d.elements.map (·.kept dl)).map (·.name)).Nodup by
      rw [hnames]
      exact h.elementNames
    latticeNames := h.latticeNames
    distinct := by
      intro e he
      obtain ⟨e', he', rfl⟩ := List.mem_map.1 he
      exact h.distinct e' he'
    latticeNamed := h.latticeNamed
    groups := h.groups
    defined := fun l hl name hname => hdefines.2 (h.defined l hl name hname)
    acyclic := h.acyclic
    root := h.root
    extraNames := h.extraNames
    extras := h.extras }

theorem mem_lattices_inDeck (h : d.Lawful) {l : Lattice} :
    l ∈ (d.inDeck root).lattices ↔ ∃ l' ∈ d.lattices, l'.spliced = l := by
  show l ∈ d.inDependencyOrder.map .spliced ↔ _
  simp only [List.mem_map, h.inDependencyOrder_perm.mem_iff]

theorem defines_inDeck (h : d.Lawful) {name : String} :
    (d.inDeck root).Defines name ↔ d.Defines name := by
  unfold Defines
  simp only [mem_lattices_inDeck h, exists_exists_and_eq_and]
  simp [inDeck, Element.bare, Lattice.spliced]

theorem mentions_inDeck (h : d.Lawful) : (d.inDeck root).Mentions = d.Mentions := by
  funext a b
  unfold Mentions
  simp only [mem_lattices_inDeck h, exists_exists_and_eq_and, Lattice.references_spliced]
  rfl

theorem Lawful.bare {e : Element} (he : e.Lawful) : e.bare.Lawful :=
  ⟨he.named, he.finite, he.length⟩

/-- What a deck keeps of a document keeps the rules. -/
theorem Lawful.inDeck (h : d.Lawful) (hroot : d.root = some root) : (d.inDeck root).Lawful where
  major := rfl
  minor := show Version.current.minor < 2 ^ 32 by decide
  elements := by
    intro e he
    obtain ⟨e', he', rfl⟩ := List.mem_map.1 he
    exact Lawful.bare (h.elements e' he')
  elementNames := by
    show ((d.elements.map Element.bare).map (·.name)).Nodup
    rw [List.map_map]
    exact h.elementNames
  latticeNames := by
    show ((d.inDependencyOrder.map Lattice.spliced).map (·.name)).Nodup
    rw [List.map_map]
    exact (h.inDependencyOrder_perm.map _).nodup_iff.2 h.latticeNames
  distinct := by
    intro e he l hl
    obtain ⟨e', he', rfl⟩ := List.mem_map.1 he
    obtain ⟨l', hl', rfl⟩ := (mem_lattices_inDeck h).1 hl
    exact h.distinct e' he' l' hl'
  latticeNamed := by
    intro l hl
    obtain ⟨l', hl', rfl⟩ := (mem_lattices_inDeck h).1 hl
    exact h.latticeNamed l' hl'
  groups := by
    intro l hl g hg
    obtain ⟨l, -, rfl⟩ := (mem_lattices_inDeck h).1 hl
    exact absurd hg Item.not_within_map_name
  defined := by
    intro l hl name hname
    obtain ⟨l', hl', rfl⟩ := (mem_lattices_inDeck h).1 hl
    rw [Lattice.references_spliced] at hname
    exact (defines_inDeck h).2 (h.defined l' hl' name hname)
  acyclic := by
    rw [mentions_inDeck h]
    exact h.acyclic
  root := by
    rintro name ⟨⟩
    obtain ⟨l, hl, rfl⟩ := h.root root hroot
    exact ⟨l.spliced, (mem_lattices_inDeck h).2 ⟨l, hl, rfl⟩, rfl⟩
  extraNames := List.nodup_nil
  extras := fun _ hm => absurd hm List.not_mem_nil

theorem meets_inDeck : (d.inDeck root).Meets .standard :=
  ⟨.inr (.inr rfl), fun h => absurd h (by decide), fun h => absurd h (by decide)⟩

theorem Portable.inDeck (h : d.Portable) (hlawful : d.Lawful) (hroot : d.root = some root) :
    (d.inDeck root).Portable where
  elementNames := by
    intro e he
    obtain ⟨e', he', rfl⟩ := List.mem_map.1 he
    exact h.elementNames e' he'
  latticeNames := by
    intro l hl
    obtain ⟨l', hl', rfl⟩ := (mem_lattices_inDeck hlawful).1 hl
    exact h.latticeNames l' hl'
  items := by
    intro l hl
    obtain ⟨l', hl', rfl⟩ := (mem_lattices_inDeck hlawful).1 hl
    rw [Lattice.spliced, Ne, List.map_eq_nil_iff]
    exact (h.plainNamed.references hlawful hl').1
  title := by
    rintro title ⟨⟩
    exact h.shown hlawful hroot

/-! ## Reading -/

/-- A required parameter has a value, so none of those that are missing is required. -/
theorem required_of_lookup_eq_none (b : Body) : ∀ p, b.fields.lookup p = none →
    p ∉ b.kind.required := by
  intro p hp hrequired
  obtain ⟨slot, hslot, rfl⟩ := List.mem_map.1 hrequired
  obtain ⟨hslot, hreq⟩ := List.mem_filter.1 hslot
  have hinfo : slot.parameter ≠ .info := by
    have : ∀ k : Kind, ∀ s ∈ k.slots, s.required = true → s.parameter ≠ .info := by
      intro k
      cases k <;> decide
    exact this _ slot hslot hreq
  obtain ⟨o, ho, hsome⟩ := b.mem_settings_of_slot slot hslot hinfo
  obtain ⟨q, rfl⟩ := Option.isSome_iff_exists.1 (hsome hreq)
  rw [Table.lookup_eq_none] at hp
  exact hp (Table.mem_keys_of_mem (Body.mem_fields_iff.2 ho))

/-- What has been read for an element describes the element. -/
theorem element_of_defined {e : Element} {entry : String × Definition}
    (h : Session.Defined e entry) : entry.2.element entry.1 = .ok e.bare := by
  have hvalue : entry.2.value = fun p => e.body.fields.lookup p := by
    funext p
    unfold Definition.value
    rw [h.fields, h.kind]
    cases hp : e.body.fields.lookup p with
    | some q => rfl
    | none =>
      have := required_of_lookup_eq_none e.body p hp
      rw [← List.contains_iff_mem] at this
      exact if_neg this
  have hbody := e.body.ofSource_lookup_fields
  refine bind_eq_ok.2 ⟨e.body, ?_, by rw [h.name]; rfl⟩
  rw [hvalue, h.kind]
  exact hbody

theorem elementList_eq {s : Session} (h : Session.Describes d root s) :
    s.elementList = .ok (d.elements.map .bare) := by
  unfold Session.elementList
  rw [mapM_eq_ok, List.forall₂_map_right_iff]
  exact List.Forall₂.flip (h.elements.imp fun e entry hentry =>
    mapError_eq_ok.2 (element_of_defined hentry))

theorem builder_eq (hlawful : d.Lawful) (hroot : d.root = some root) {s : Session}
    (h : Session.Describes d root s) :
    s.builder (d.elements.map .bare) = ⟨d.inDeck root, []⟩ := by
  have hkept := hlawful.inDeck hroot
  have hlattices : ∀ b : Builder, s.lines.foldl (fun b l => b.lattice ⟨l.1, l.2.map .name⟩) b =
      (d.inDeck root).lattices.foldl Builder.lattice b := by
    intro b
    rw [h.lines, List.foldl_map]
    exact (List.foldl_map ..).symm
  unfold Session.builder
  rw [h.title, h.root]
  dsimp only [Option.map_some, Option.getD_some]
  rw [Builder.foldl_element _ _ (by simpa [Builder.title, Builder.empty, inDeck] using
      hkept.elementNames), hlattices, Builder.foldl_lattice _ _
      (by simpa [Builder.title, Builder.empty] using hkept.latticeNames)]
  rfl

/-- A session that a document has left behind describes what a deck keeps of it. -/
theorem document_eq (hlawful : d.Lawful) (hroot : d.root = some root) {s : Session}
    (h : Session.Describes d root s) : s.document dl = .ok (d.inDeck root) := by
  rw [Session.document, elementList_eq h]
  dsimp only
  rw [builder_eq hlawful hroot h]
  exact (hlawful.inDeck hroot).build_eq meets_inDeck

/-- What a deck keeps of a document is read from a deck with its title and its statements. -/
theorem readDeck_of_cut (h : d.PlainNamed) (hlawful : d.Lawful) (hroot : d.root = some root)
    (hexpressible : ∀ e ∈ d.elements, e.Expressible dl) {text : String} {clauses : List Clause}
    (hcut : (Deck.cut dl text.toList).clauses = clauses) {behind : List Clause}
    (htitle : Session.clauses dl { title := (Deck.cut dl text.toList).title } clauses =
      Session.clauses dl { title := some (d.title.getD root) } behind)
    (hbehind : behind.map (·.text) = statements dl d root) :
    readDeck dl text = (.ok ((d.kept dl).inDeck root), []) := by
  obtain ⟨s, hs, hdescribes⟩ := Session.exists_clauses h hlawful hroot hexpressible hbehind
  unfold readDeck
  dsimp only
  rw [hcut, htitle, hs]
  dsimp only
  rw [document_eq (hlawful.kept dl) hroot hdescribes, hdescribes.notes]

/-- A MAD-X deck is cut into its title, if that has no quotation marks, and its statements. -/
theorem exists_behind_titleText (h : d.PlainNames) (hlawful : d.Lawful) (hroot : d.root = some root)
    {title : List Char} (hquote : '"' ∉ title) {text : String} (htext : text.toList =
      (titleText title :: statements .madx d root).flatMap fun s => s ++ [';', '\n']) :
    ∃ behind, Session.clauses .madx { title := (Deck.cut .madx text.toList).title }
        (Deck.cut .madx text.toList).clauses =
      Session.clauses .madx { title := some (String.ofList title) } behind ∧
      behind.map (·.text) = statements .madx d root := by
  have hclauses : ∀ s ∈ titleText title :: statements .madx d root, IsClause s := by
    rw [List.forall_mem_cons]
    have hwritable : ∀ e ∈ d.elements, e.Writable .madx := fun _ _ => nofun
    refine ⟨isClause_title hquote, fun s hs => Coded.isClause ?_⟩
    exact coded_of_mem_statements h hlawful hroot hwritable s hs
  obtain ⟨clauses, hcut, hmap⟩ := exists_cutMadx hclauses {} rfl
  obtain ⟨first, behind, rfl, hfirst, hbehind⟩ := List.map_eq_cons_iff.1 hmap
  rw [← htext] at hcut
  refine ⟨behind, ?_, hbehind⟩
  rw [← Session.clauses_cons (Session.clause_title (s := {}) hquote hfirst) behind, ← hcut]
  rfl

/-- What a deck keeps of a document is read from the statements of the document. -/
theorem readDeck_of_statements (h : d.Portable) (hlawful : d.Lawful) (hroot : d.root = some root)
    {text : String} (htext : text.toList =
      (titleText (d.title.getD root).toList :: statements .madx d root).flatMap
        fun s => s ++ [';', '\n']) :
    readDeck .madx text = (.ok (d.inDeck root), []) := by
  have hquote : '"' ∉ (d.title.getD root).toList := fun hmem =>
    (h.shown hlawful hroot _ hmem).1 rfl
  have hexpressible : ∀ e ∈ d.elements, e.Expressible .madx := fun _ _ => ⟨nofun, nofun⟩
  obtain ⟨behind, htitle, hbehind⟩ :=
    exists_behind_titleText h.plainNamed.plainNames hlawful hroot hquote htext
  rw [String.ofList_toList] at htitle
  have hread := readDeck_of_cut h.plainNamed hlawful hroot hexpressible rfl htitle hbehind
  rwa [kept_madx] at hread

/-! ## Writing again -/

theorem inDependencyOrder_inDeck (h : d.Lawful) (hroot : d.root = some root) :
    (d.inDeck root).inDependencyOrder = d.inDependencyOrder.map .spliced := by
  apply (h.inDeck hroot).inDependencyOrder_eq_self
  show Reach.Layered _ ((d.inDependencyOrder.map Lattice.spliced).map (·.name)).reverse
  rw [mentions_inDeck h, List.map_map]
  exact h.layered_inDependencyOrder

theorem statements_inDeck (h : d.Lawful) (hroot : d.root = some root) :
    statements dl (d.inDeck root) root = statements dl d root := by
  have hlines : ((d.inDeck root).inDependencyOrder.map fun l => (latticeStatement l).toList) =
      d.inDependencyOrder.map fun l => (latticeStatement l).toList := by
    rw [inDependencyOrder_inDeck h hroot, List.map_map]
    apply List.map_congr_left
    intro l _
    show (lineText l.name l.spliced.references).toList = _
    rw [Lattice.references_spliced]
    rfl
  have helements : ((d.inDeck root).elements.map fun e => (elementStatement dl e).toList) =
      d.elements.map fun e => (elementStatement dl e).toList := by
    show (d.elements.map Element.bare).map _ = _
    rw [List.map_map]
    rfl
  rw [statements, hlines, helements]
  rfl

/-- What a deck keeps of a document is written as the document was. -/
theorem writeDeck_inDeck (h : d.Portable) (hlawful : d.Lawful) (hroot : d.root = some root) :
    (d.inDeck root).writeDeck .madx = d.writeDeck .madx := by
  obtain ⟨text, hwrite, htext⟩ := writeDeck_eq h hlawful hroot
  obtain ⟨text', hwrite', htext'⟩ :=
    writeDeck_eq (h.inDeck hlawful hroot) (hlawful.inDeck hroot) rfl
  rw [statements_inDeck hlawful hroot] at htext'
  obtain rfl : text' = text := String.toList_inj.1 (htext'.trans htext.symm)
  rw [hwrite, hwrite']

/-! ## Documents that a deck keeps as a whole -/

/-- A document with nothing that a deck leaves out or changes. -/
structure Whole (d : Document) : Prop where
  version : d.version = ⟨3, 0⟩
  title : d.title ≠ none
  info : d.info = none
  remarks : ∀ e ∈ d.elements, e.info = none
  extras : d.extras = []
  groups : ∀ l ∈ d.lattices, ∀ g, ¬ Item.Within (.group g) l.items

theorem elements_of_whole (h : d.Whole) : d.elements.map .bare = d.elements := by
  conv_rhs => rw [← List.map_id d.elements]
  apply List.map_congr_left
  intro e he
  have hinfo := h.remarks e he
  obtain ⟨name, info, body⟩ := e
  obtain rfl : info = none := hinfo
  rfl

theorem lattices_of_whole (h : d.Whole) : d.lattices.map .spliced = d.lattices := by
  conv_rhs => rw [← List.map_id d.lattices]
  apply List.map_congr_left
  intro l hl
  have hitems := Item.map_name_namesOf (h.groups l hl)
  obtain ⟨name, items⟩ := l
  exact congrArg (Lattice.mk name) hitems

/-- Documents that differ in the order of their lattices alone are equal as documents. -/
theorem agrees_of_perm {d' : Document} (h : d.Lawful) (hextras : d.extras = [])
    (hperm : d'.lattices.Perm d.lattices) (hd' : d' = { d with lattices := d'.lattices }) :
    d'.agrees d = true := by
  have helements : d.elements.all (fun e => (d.element? e.name).any e.agrees) = true := by
    rw [List.all_eq_true]
    intro e he
    rw [h.element?_of_mem he, Option.any_some]
    exact (h.elements e he).agrees_self
  have hlattices : d'.lattices.all (fun l => (d.lattice? l.name).any l.same) = true := by
    rw [List.all_eq_true]
    intro l hl
    rw [h.lattice?_of_mem (hperm.mem_iff.1 hl), Option.any_some]
    exact l.same_self
  rw [hd']
  simp [agrees, helements, hlattices, hperm.length_eq, hextras, Json.agrees, Json.agreesMembers]

/-- A validated document with a root and portable names is written as a MAD-X deck, and from the
deck is read what it says: its title or else the name of its root, its root, its elements without
remarks, and for each lattice the names that it refers to. A document with nothing else is read
back as it was. What has been read is written as the same deck. -/
theorem readDeck_writeDeck (h : d.Validated) (hroot : d.root = some root)
    (hportable : d.Portable) : ∃ text d', d.writeDeck .madx = .ok text ∧
      readDeck .madx text = (.ok d', []) ∧
      d'.version = ⟨3, 0⟩ ∧ d'.title = some (d.title.getD root) ∧ d'.info = none ∧
      d'.root = some root ∧ d'.elements = d.elements.map .bare ∧
      d'.lattices.Perm (d.lattices.map .spliced) ∧ d'.extras = [] ∧
      (d.Whole → d'.agrees d = true ∧ d' = { d with lattices := d'.lattices } ∧
        d'.lattices.Perm d.lattices) ∧
      d'.writeDeck .madx = .ok text := by
  have hlawful := lawful_of_validated h
  obtain ⟨text, hwrite, htext⟩ := writeDeck_eq hportable hlawful hroot
  have hperm : (d.inDeck root).lattices.Perm (d.lattices.map .spliced) :=
    hlawful.inDependencyOrder_perm.map _
  refine ⟨text, d.inDeck root, hwrite, readDeck_of_statements hportable hlawful hroot htext, rfl,
    rfl, rfl, rfl, rfl, hperm, rfl, fun hwhole => ?_, ?_⟩
  · rw [lattices_of_whole hwhole] at hperm
    have heq : d.inDeck root = { d with lattices := (d.inDeck root).lattices } := by
      obtain ⟨title, htitle⟩ := Option.ne_none_iff_exists'.1 hwhole.title
      rw [inDeck, elements_of_whole hwhole, hroot, hwhole.version, hwhole.info, hwhole.extras,
        htitle]
      rfl
    exact ⟨agrees_of_perm hlawful hwhole.extras hperm heq, heq, hperm⟩
  · rw [writeDeck_inDeck hportable hlawful hroot, hwrite]

/-- Parts of a document with a group and with a lattice in front of the one that it names. -/
def ringParts : Builder :=
  ((((((Builder.empty.info "a ring").root "RING").element
    ⟨"Q1", some "focusing", .quadrupole 0.5 (some (-1.25))⟩).element
    ⟨"D.1", none, .drift 2⟩).element
    ⟨"M$", none, .multipole [0, 0.1] none⟩).lattice
    ⟨"RING", [.name "CELL", .group [.name "D.1", .name "CELL"]]⟩).lattice
    ⟨"CELL", [.name "Q1", .name "M$"]⟩

theorem validated_ringParts : ringParts.document.Validated := by
  have hreachable : ringParts.Reachable := by
    repeat' constructor
  refine .built hreachable (Builder.build_eq_ok_iff.2 ⟨rfl, ?_, rfl⟩)
  rw [← passes_findings_iff, ← accepted_iff]
  decide +kernel

theorem portable_ringParts : ringParts.document.Portable where
  elementNames := by decide +kernel
  latticeNames := by decide +kernel
  items := by decide +kernel
  title := fun _ h => by cases h

/-- `readDeck_writeDeck` for these parts: the deck has the name of the root as its title. -/
theorem readDeck_writeDeck_ringParts : ∃ text d', ringParts.document.writeDeck .madx = .ok text ∧
    readDeck .madx text = (.ok d', []) ∧ d'.title = some "RING" := by
  obtain ⟨text, d', hwrite, hread, -, htitle, -⟩ :=
    @readDeck_writeDeck ringParts.document "RING" validated_ringParts rfl portable_ringParts
  exact ⟨text, d', hwrite, hread, htitle⟩

end Document

end Beamline
