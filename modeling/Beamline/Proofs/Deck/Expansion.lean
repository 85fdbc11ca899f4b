import Beamline.Proofs.Deck.Title
import Beamline.Proofs.Document.Expansion

/-!
# What the lattices of a deck stand for

* `Document.Flattens.inDeck` : what is read from a deck has lattices that stand for the same
  elements as those of the document that was written;
* `Deck.parse_emptyLine` : a line without items is written and cannot be read;
* `Document.readDeck_of_emptyLine` : so a deck with one is refused;
* `Document.expand_readDeck` : which decks are read, and what their lattices are expanded to.
-/

namespace Beamline

open Deck

namespace Document

variable {d : Document} {root t : String} {dl : Dialect}

/-! ## Lattices that are read back -/

/-- What a deck keeps of an element. -/
def inDeckElement (dl : Dialect) (e : Element) : Element :=
  (e.kept dl).bare

theorem elements_inDeck (dl : Dialect) (d : Document) (root t : String) :
    (((d.kept dl).inDeck root).titled t).elements = d.elements.map (inDeckElement dl) :=
  List.map_map ..

theorem mem_lattices_kept_inDeck (h : d.Lawful) {l : Lattice} (hl : l ∈ d.lattices) :
    l.spliced ∈ (((d.kept dl).inDeck root).titled t).lattices := by
  show l.spliced ∈ ((d.kept dl).inDeck root).lattices
  exact (mem_lattices_inDeck (h.kept dl)).2 ⟨l, hl, rfl⟩

/-- The names that items mention stand for the same elements in what is read from a deck. -/
theorem Flattens.inDeck (h : d.Lawful) {items : List Item} {es : List Element}
    (hes : d.Flattens items es) : (((d.kept dl).inDeck root).titled t).Flattens
      ((Item.namesOf items).map .name) (es.map (inDeckElement dl)) := by
  induction hes with
  | nil => exact .nil
  | @element e rest es he _ ih =>
    refine .element (e := inDeckElement dl e) ?_ ih
    rw [elements_inDeck]
    exact List.mem_map_of_mem he
  | @lattice l rest inner es hl _ _ ihinner ih =>
    rw [List.map_append]
    exact .lattice (l := l.spliced) (mem_lattices_kept_inDeck h hl) ihinner ih
  | group _ _ ihinner ih =>
    rw [Item.namesOf, Item.names, List.map_append, List.map_append]
    exact ihinner.append ih

theorem length_inDeckElement (dl : Dialect) (e : Element) :
    (inDeckElement dl e).length = e.length := by
  show (e.body.kept dl).length = e.body.length
  rcases e.body.kept_cases dl with hkept | ⟨knl, ksl, n, k, rfl, hbody, horder⟩
  · rw [hkept]
  · rw [hbody, Body.kept_multipole horder]
    rfl

theorem totalLength_inDeckElement (dl : Dialect) (es : List Element) :
    totalLength (es.map (inDeckElement dl)) = totalLength es := by
  rw [totalLength, totalLength, List.foldl_map]
  simp only [length_inDeckElement]

/-- A lattice is expanded to the same elements in what is read from a deck. -/
theorem expand_inDeck (dl : Dialect) (t : String) (h : d.Lawful) (hroot : d.root = some root)
    {l : Lattice} (hl : l ∈ d.lattices) : ∃ es, d.expand l.name = .ok es ∧
      (((d.kept dl).inDeck root).titled t).expand l.name = .ok (es.map (inDeckElement dl)) := by
  obtain ⟨es, hes⟩ := h.exists_flattens hl
  have hkept : (((d.kept dl).inDeck root).titled t).Lawful := ((h.kept dl).inDeck hroot).titled t
  exact ⟨es, h.expand_eq hl hes,
    hkept.expand_eq (l := l.spliced) (mem_lattices_kept_inDeck h hl) (hes.inDeck h)⟩

end Document

/-! ## Lines without items -/

namespace Deck

open Grammar Text Text.Scanner

/-- What stands behind the name in the definition of a line without items. -/
def emptyBody : List Char :=
  ": LINE=()".toList

theorem lineItems_close (fuel : Nat) : lineItems fuel [')'] = none := by
  cases fuel with
  | zero => rfl
  | succ fuel => rfl

theorem toList_emptyLine (name : String) :
    (lineText name []).toList = labelled name "LINE" ['=', '(', ')'] := by
  simp [lineText, labelled, String.toList_append]

/-- A line without items is no definition, and a command with a colon behind it is none either. -/
theorem parse_emptyLine {name : String} (hname : isPlainName name) :
    parse (lineText name []).toList = .error (.leftover emptyBody) := by
  rw [toList_emptyLine]
  generalize htext : labelled name "LINE" ['=', '(', ')'] = text
  have hlabel : spaced Word.name text = some (name, emptyBody) := by
    rw [← htext]
    exact spaced_name_cons hname (by decide) (by decide) _
  have hdefinition : ∀ fuel, definition fuel text = none := by
    intro fuel
    have hkeyword : isPlainName "LINE" := by decide
    have hbefore := before_labelled hname hkeyword ['=', '(', ')']
    have hword : spaced Word.name ("LINE".toList ++ ['=', '(', ')']) =
        some ("LINE", ['=', '(', ')']) := by decide
    have hbody : after equals (between (mark '(') (lineItems fuel) (mark ')')) ['=', '(', ')'] =
        none := by
      rw [after_eq (equals_cons (solid_cons (by decide) _)), between,
        after_eq (mark_cons (by decide) (solid_cons (by decide) _)), before, lineItems_close]
      rfl
    rw [← htext]
    simp only [definition, hbefore, hword, hbody, Option.bind_eq_bind, Option.bind_some, if_true,
      Option.bind_none]
  have hcommand : ∀ fuel, command fuel text = some (.command name [], emptyBody) := by
    intro fuel
    have hend : after (mark ',') argument emptyBody = none :=
      after_eq_none (mark_eq_none (solid_cons (by decide) _) (by rintro _ ⟨⟩; decide))
    simp [command, hlabel, many_eq_nil hend]
  have hcolon := assignment_eq_none hlabel (equals_colon (by rintro _ ⟨⟩; decide))
  unfold parse
  rw [Grammar.statement, orElse, hcolon, orElse, hdefinition, hcommand]
  rfl

end Deck

namespace Document

variable {d : Document} {root t : String} {dl : Dialect}

/-- The statements of a document with an empty lattice end at the first line without items. -/
theorem clauses_emptyLine (h : d.PlainNames) (hlawful : d.Lawful)
    (hexpressible : ∀ e ∈ d.elements, e.Expressible dl) (hempty : ∃ l ∈ d.lattices, l.items = [])
    {cs : List Clause} (hcs : cs.map (·.text) = statements dl d root) (title : String) :
    ∃ line, Session.clauses dl { title := some title } cs =
      .error ⟨line, .leftover emptyBody, []⟩ := by
  have horder := hlawful.inDependencyOrder_perm
  -- the first line without items, and those in front of it
  obtain ⟨l, hl⟩ : ∃ l, d.inDependencyOrder.find? (·.items.isEmpty) = some l := by
    obtain ⟨l, hl, hitems⟩ := hempty
    rw [← Option.isSome_iff_exists, List.find?_isSome]
    exact ⟨l, horder.mem_iff.2 hl, by rw [hitems]; rfl⟩
  obtain ⟨hnil, before, behind, hsplit, hbefore⟩ := List.find?_eq_some_iff_append.1 hl
  have hreferences : l.references = [] := by
    rw [Lattice.references, List.isEmpty_iff.1 hnil]
    rfl
  have hmem : ∀ l' ∈ before ++ l :: behind, l' ∈ d.lattices := by
    rw [← hsplit]
    exact fun l' hl' => horder.mem_iff.1 hl'
  have hlines : ∀ l' ∈ before, isPlainName l'.name ∧ l'.references ≠ [] ∧
      ∀ s ∈ l'.references, isPlainName s := by
    intro l' hl'
    have hmem' := hmem l' (List.mem_append_left _ hl')
    have hne : l'.items ≠ [] := by simpa using hbefore l' hl'
    exact ⟨h.lattices l' hmem', Item.namesOf_ne_nil hne (hlawful.groups l' hmem'),
      h.references hlawful hmem'⟩
  have hname : isPlainName l.name := h.lattices l (hmem l (by simp))
  have hnames : (before.map (·.name)).Nodup := by
    have hnodup := (horder.map (·.name)).nodup_iff.2 hlawful.latticeNames
    rw [hsplit, List.map_append] at hnodup
    exact hnodup.of_append_left
  -- the clauses of the elements, of the lines in front, and of that line
  rw [statements, hsplit, List.map_append, List.map_cons, List.append_assoc, List.append_assoc,
    List.cons_append] at hcs
  obtain ⟨elements, cs, rfl, helements, hcs⟩ := List.map_eq_append_iff.1 hcs
  obtain ⟨lattices, cs, rfl, hlattices, hcs⟩ := List.map_eq_append_iff.1 hcs
  obtain ⟨c, cs, rfl, hc, -⟩ := List.map_eq_cons_iff.1 hcs
  obtain ⟨entries, -, hafterElements⟩ := Session.clauses_elements
    (fun e he => ⟨hlawful.elements e he, hexpressible e he, h.elements e he⟩)
    (lattices ++ c :: cs) elements { title := some title } helements
    (by simpa [Table.keys] using hlawful.elementNames)
  obtain ⟨last, hafterLattices⟩ := Session.clauses_lattices hlines (c :: cs) lattices
    { title := some title, elements := [] ++ entries } hlattices
    (by simpa [Table.keys] using hnames)
  have hcoded : Coded c.text :=
    hc ▸ coded_latticeStatement hname (by simp [hreferences])
  have hparse : parse c.text = .error (.leftover emptyBody) := by
    rw [hc, latticeStatement, hreferences]
    exact parse_emptyLine hname
  refine ⟨c.line, ?_⟩
  rw [hafterElements, hafterLattices, Session.clauses, Session.clause_error hcoded hparse]
  rfl

/-- A deck with a line without items is refused at that line. -/
theorem readDeck_of_emptyLine (h : d.PlainNames) (hlawful : d.Lawful) (hroot : d.root = some root)
    (hexpressible : ∀ e ∈ d.elements, e.Expressible dl) (hempty : ∃ l ∈ d.lattices, l.items = [])
    (ht : Confined dl t) {text : String} (hwrite : (d.titled t).writeDeck dl = .ok text) :
    ∃ line, readDeck dl text = (.error (.importing dl line (.leftover emptyBody)), []) := by
  obtain ⟨behind, htitle, hbehind⟩ := exists_behind_title h hlawful hroot
    (fun e he => (hexpressible e he).writable) ht hwrite
  obtain ⟨line, hclauses⟩ := clauses_emptyLine h hlawful hexpressible hempty hbehind
    (readTitle dl t)
  refine ⟨line, ?_⟩
  unfold readDeck
  dsimp only
  rw [htitle, hclauses]

/-! ## All decks -/

/-- The title that a deck shows. -/
theorem writeDeck_shown (hlawful : d.Lawful) (hroot : d.root = some root) {text : String}
    (hwrite : d.writeDeck dl = .ok text) :
    (d.titled (d.title.getD root)).writeDeck dl = .ok text := by
  have hwritable := writable_of_writeDeck hwrite
  obtain ⟨text₁, hwrite₁, htext₁⟩ := exists_writeDeck hwritable hlawful hroot
  obtain ⟨text₂, hwrite₂, htext₂⟩ := exists_writeDeck (d := d.titled (d.title.getD root)) hwritable
    (hlawful.titled _) hroot
  rw [statements_titled] at htext₂
  obtain rfl : text₁ = text := Except.ok.inj (hwrite₁.symm.trans hwrite)
  obtain rfl : text₂ = text₁ := String.toList_inj.1 (htext₂.trans htext₁.symm)
  exact hwrite₂

/-- The title that a deck shows is confined if the document has a plain one or none. -/
theorem confined_shown (h : d.PlainNames) (hlawful : d.Lawful) (hroot : d.root = some root)
    (htitle : ∀ title, d.title = some title → '"' ∉ title.toList ∧ '\n' ∉ title.toList) :
    Confined dl (d.title.getD root) := by
  cases ht : d.title with
  | some title => exact confined_of_inline (htitle title ht).1 (htitle title ht).2
  | none =>
    obtain ⟨l, hl, rfl⟩ := hlawful.root root hroot
    have hplain := isPlainRest_of_mem (h.lattices l hl)
    exact confined_of_inline (fun hmem => absurd (hplain _ hmem) (by decide))
      fun hmem => absurd (hplain _ hmem) (by decide)

/-- A deck that was written for a validated document with a root, plain names and a title without
quotation marks and line feeds is read if and only if no lattice of the document is empty. In what
is read every lattice is expanded to elements of the same names, and has the same length. In an
elegant deck the order of a strength is read as a float, which is exact below `2 ^ 53`. -/
theorem expand_readDeck (h : d.Validated) (hroot : d.root = some root) (hplain : d.PlainNames)
    (htitle : ∀ title, d.title = some title → '"' ∉ title.toList ∧ '\n' ∉ title.toList)
    {text : String} (hwrite : d.writeDeck dl = .ok text)
    (horders : dl = .elegant → ∀ e ∈ d.elements, ∀ knl ksl, e.body = .multipole knl ksl →
      knl.length ≤ 2 ^ 53) :
    ((∀ l ∈ d.lattices, l.items ≠ []) → ∃ d', readDeck dl text = (.ok d', []) ∧
      ∀ l ∈ d.lattices, ∃ es es', d.expand l.name = .ok es ∧ d'.expand l.name = .ok es' ∧
        es'.map (·.name) = es.map (·.name) ∧ d'.length l.name = d.length l.name) ∧
    ((∃ l ∈ d.lattices, l.items = []) →
      ∃ line, readDeck dl text = (.error (.importing dl line (.leftover emptyBody)), [])) := by
  have hlawful := lawful_of_validated h
  have hexpressible : ∀ e ∈ d.elements, e.Expressible dl := fun e he =>
    ⟨writable_of_writeDeck hwrite e he, fun hdl => horders hdl e he⟩
  have hconfined : Confined dl (d.title.getD root) := confined_shown hplain hlawful hroot htitle
  have hshown := writeDeck_shown hlawful hroot hwrite
  refine ⟨fun hitems => ?_, fun hempty =>
    readDeck_of_emptyLine hplain hlawful hroot hexpressible hempty hconfined hshown⟩
  have hread := readDeck_titled ⟨hplain.elements, hplain.lattices, hitems⟩ hlawful hroot
    hexpressible hconfined hshown
  refine ⟨_, hread, fun l hl => ?_⟩
  obtain ⟨es, hes, hes'⟩ := expand_inDeck dl (readTitle dl (d.title.getD root))
    hlawful hroot hl
  refine ⟨es, _, hes, hes', ?_, ?_⟩
  · rw [List.map_map]
    rfl
  · rw [length, length, hes, hes', Except.map, Except.map, totalLength_inDeckElement]

/-- A lattice with the items `inner`, twice in another one. -/
def nestedParts (inner : List Item) : Builder :=
  (((Builder.empty.element ⟨"D", none, .drift 1⟩).lattice ⟨"CELL", inner⟩).lattice
    ⟨"L", [.name "CELL", .name "D", .name "CELL"]⟩).root "L"

theorem validated_nestedParts (inner : List Item)
    (h : (validate .standard (nestedParts inner).document.toJson).accepted = true) :
    (nestedParts inner).document.Validated := by
  have hreachable : (nestedParts inner).Reachable := by
    repeat' constructor
  exact .built hreachable (build_of_accepted rfl h)

theorem plainNames_nestedParts (inner : List Item) : (nestedParts inner).document.PlainNames := by
  refine ⟨fun e he => ?_, fun l hl => ?_⟩
  · obtain rfl := List.mem_singleton.1 he
    decide
  · rcases List.mem_pair.1 hl with rfl | rfl
    · show isPlainName "CELL"
      decide
    · show isPlainName "L"
      decide

theorem writes_nestedParts {inner : List Item} (h : (nestedParts inner).document.Validated)
    (dl : Dialect) : ∃ text, (nestedParts inner).document.writeDeck dl = .ok text := by
  have hwritable : ∀ e ∈ (nestedParts inner).document.elements, e.Writable dl := by
    intro e he
    obtain rfl := List.mem_singleton.1 he
    exact fun _ => trivial
  have hroot : (nestedParts inner).document.root = some "L" := rfl
  obtain ⟨text, hwrite, -⟩ := exists_writeDeck hwritable (lawful_of_validated h) hroot
  exact ⟨text, hwrite⟩

/-- `expand_readDeck` for an elegant deck with a group inside the inner lattice, and for a MAD-X
deck with nothing in it. -/
theorem expand_readDeck_nestedParts :
    (∃ text d' es, (nestedParts [.group [.name "D"]]).document.writeDeck .elegant = .ok text ∧
      readDeck .elegant text = (.ok d', []) ∧ d'.expand "L" = .ok es ∧
      es.map (·.name) = ["D", "D", "D"]) ∧
    ∃ text line, (nestedParts []).document.writeDeck .madx = .ok text ∧
      readDeck .madx text = (.error (.importing .madx line (.leftover emptyBody)), []) := by
  have hroot : ∀ inner, (nestedParts inner).document.root = some "L" := fun _ => rfl
  refine ⟨?_, ?_⟩
  · have hgroup := validated_nestedParts [.group [.name "D"]] (by decide +kernel)
    obtain ⟨text, hwrite⟩ := writes_nestedParts hgroup .elegant
    have horders : ∀ e ∈ (nestedParts [.group [.name "D"]]).document.elements, ∀ knl ksl,
        e.body = .multipole knl ksl → knl.length ≤ 2 ^ 53 := by
      intro e he knl ksl hbody
      obtain rfl := List.mem_singleton.1 he
      cases hbody
    obtain ⟨hread, -⟩ := expand_readDeck hgroup (hroot _) (plainNames_nestedParts _) nofun hwrite
      fun _ => horders
    obtain ⟨d', hd', hexpand⟩ := hread (by decide)
    obtain ⟨es, es', hes, hes', hnames, -⟩ := hexpand _ (List.mem_pair.2 (.inr rfl))
    have hrun : ((nestedParts [.group [.name "D"]]).document.expand "L").map
        (·.map (·.name)) = .ok ["D", "D", "D"] := by
      decide +kernel
    rw [hes, Except.map] at hrun
    exact ⟨text, d', es', hwrite, hd', hes', hnames.trans (Except.ok.inj hrun)⟩
  · have hempty := validated_nestedParts [] (by decide +kernel)
    obtain ⟨text, hwrite⟩ := writes_nestedParts hempty .madx
    obtain ⟨-, hrefused⟩ := expand_readDeck hempty (hroot _) (plainNames_nestedParts _) nofun hwrite
      nofun
    obtain ⟨line, hline⟩ := hrefused ⟨_, List.mem_pair.2 (.inl rfl), rfl⟩
    exact ⟨text, line, hwrite, hline⟩

/-- A deck that was written with an empty lattice is not read. -/
theorem not_expand_readDeck : ¬ ∀ (d : Document) (root text : String) (dl : Dialect),
    d.Validated → d.root = some root → d.PlainNames → d.title = none →
    d.writeDeck dl = .ok text → ∃ d' notes, readDeck dl text = (.ok d', notes) := by
  intro hall
  have hempty := validated_nestedParts [] (by decide +kernel)
  obtain ⟨text, hwrite⟩ := writes_nestedParts hempty .elegant
  obtain ⟨d', notes, hread⟩ := hall _ "L" text .elegant hempty rfl (plainNames_nestedParts _) rfl
    hwrite
  have hrun : ((nestedParts []).document.writeDeck .elegant).toOption.bind
      (fun text => (readDeck .elegant text).1.toOption.map (·.title)) = none := by
    decide +kernel
  rw [hwrite, Except.toOption, Option.bind_some, hread] at hrun
  cases hrun

end Document

end Beamline
