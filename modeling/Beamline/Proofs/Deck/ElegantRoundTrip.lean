import Beamline.Proofs.Deck.RoundTrip

/-!
# Writing and reading elegant decks

* `Document.Legible` : documents whose names and title elegant takes as they are;
* `Body.SameStrengths` : the same parameters, of a multipole the same strengths;
* `Document.writeDeck_kept` : what a deck keeps of a document is written as the document was;
* `Document.readDeck_writeDeck_elegant` : what has been written is read back.
-/

namespace Beamline

open Deck Validation Text

/-- The names of the document are plain, no line is empty, and the title fits in a comment. -/
structure Document.Legible (d : Document) : Prop extends d.PlainNamed where
  title : ∀ title, d.title = some title → IsTitle title.toList

/-- Two bodies have the same parameters, or they are multipoles with the same strength at every
order, the second without skew ones. -/
def Body.SameStrengths : Body → Body → Prop
  | .multipole knl _, b => ∃ knl', b = .multipole knl' none ∧
      ∀ n, strength knl' n = strength knl n
  | b, b' => b' = b

theorem Body.OneOrder.sameStrengths {b : Body} (h : b.OneOrder) :
    b.SameStrengths (b.kept .elegant) := by
  cases b with
  | multipole knl ksl =>
    obtain ⟨⟨n, k⟩, horder⟩ := Option.isSome_iff_exists.1 (isSome_singleOrder?.2 h)
    rw [Body.kept_multipole horder]
    exact ⟨_, rfl, (alone_of_singleOrder? horder).strength_oneOrder⟩
  | _ => rfl

/-! ## Writing again -/

namespace Deck

variable {dl : Dialect} {e : Element}

theorem attributesOf_kept (h : e.Writable dl) :
    attributesOf dl (e.kept dl) = attributesOf dl e := by
  cases h.written with
  | listed _ hkept _ => rw [hkept]
  | single hdialect _ horder hkept hattributes =>
    subst hdialect
    have hagain := (alone_of_singleOrder? horder).singleOrder?_oneOrder
    rw [hattributes]
    simp only [attributesOf, hkept, hagain]

theorem kind_kept (dl : Dialect) (e : Element) : (e.kept dl).kind = e.kind := by
  rcases e.body.kept_cases dl with hkept | ⟨knl, ksl, n, k, rfl, hbody, horder⟩
  · exact congrArg Body.kind hkept
  · rw [Element.kept, Element.kind, Element.kind, hbody, Body.kept_multipole horder]
    rfl

theorem elementStatement_kept (h : e.Writable dl) :
    elementStatement dl (e.kept dl) = elementStatement dl e := by
  rw [elementStatement, kind_kept, attributesOf_kept h]
  rfl

theorem writable_kept (h : e.Writable dl) : (e.kept dl).Writable dl := by
  cases h.written with
  | listed _ hkept _ =>
    rw [hkept]
    exact h
  | single hdialect _ horder hkept _ =>
    rintro -
    rw [hkept, ← isSome_singleOrder?, (alone_of_singleOrder? horder).singleOrder?_oneOrder]
    rfl

end Deck

namespace Document

variable {d : Document} {root : String} {dl : Dialect}

theorem statements_kept (h : ∀ e ∈ d.elements, e.Writable dl) :
    statements dl (d.kept dl) root = statements dl d root := by
  have helements : ((d.kept dl).elements.map fun e => (elementStatement dl e).toList) =
      d.elements.map fun e => (elementStatement dl e).toList := by
    rw [kept, List.map_map]
    apply List.map_congr_left
    intro e he
    exact congrArg String.toList (elementStatement_kept (h e he))
  rw [statements, helements, inDependencyOrder_kept]
  rfl

/-- What a deck keeps of a document is written as the document was. -/
theorem writeDeck_kept (h : ∀ e ∈ d.elements, e.Writable dl) (hlawful : d.Lawful)
    (hroot : d.root = some root) :
    ((d.kept dl).inDeck root).writeDeck dl = d.writeDeck dl := by
  have hkept := hlawful.kept dl
  have hwritable : ∀ e ∈ ((d.kept dl).inDeck root).elements, e.Writable dl := by
    intro e hmem
    obtain ⟨e', he', rfl⟩ := List.mem_map.1 hmem
    obtain ⟨e, he, rfl⟩ := List.mem_map.1 he'
    exact writable_kept (h e he)
  obtain ⟨text, hwrite, htext⟩ := exists_writeDeck h hlawful hroot
  obtain ⟨text', hwrite', htext'⟩ := exists_writeDeck hwritable (hkept.inDeck hroot) rfl
  rw [statements_inDeck hkept hroot, statements_kept h] at htext'
  obtain rfl : text' = text := String.toList_inj.1 (htext'.trans htext.symm)
  rw [hwrite, hwrite']

/-! ## Reading -/

theorem isTitle_of_isPlainName {s : String} (hs : isPlainName s) : IsTitle s.toList := by
  have hplain := isPlainRest_of_mem hs
  refine ⟨fun hmem => ?_, fun c hc => ?_, fun c hc => ?_⟩
  · exact absurd (hplain _ hmem) (by decide)
  · exact not_isBlank_of_isPlainRest (hplain c (List.mem_of_mem_head? hc))
  · exact not_isBlank_of_isPlainRest (hplain c (List.mem_of_getLast? hc))

/-- The title that a deck shows fits in a comment. -/
theorem Legible.shown (h : d.Legible) (hlawful : d.Lawful) (hroot : d.root = some root) :
    IsTitle (d.title.getD root).toList := by
  cases htitle : d.title with
  | some title => exact h.title title htitle
  | none =>
    obtain ⟨l, hl, rfl⟩ := hlawful.root root hroot
    exact isTitle_of_isPlainName (h.latticeNames l hl)

/-- What an elegant deck keeps of a document is read from the deck. -/
theorem readDeck_of_writeDeck (h : d.Legible) (hlawful : d.Lawful) (hroot : d.root = some root)
    (hexpressible : ∀ e ∈ d.elements, e.Expressible .elegant) {text : String}
    (hwrite : d.writeDeck .elegant = .ok text) :
    readDeck .elegant text = (.ok ((d.kept .elegant).inDeck root), []) := by
  have hwritable : ∀ e ∈ d.elements, e.Writable .elegant := fun e he => (hexpressible e he).writable
  have hcoded := coded_of_mem_statements h.plainNames hlawful hroot hwritable
  obtain ⟨clauses, hcut, hmap⟩ := exists_cutElegant (h.shown hlawful hroot) hcoded
  obtain ⟨text', hwrite', htext⟩ := exists_writeDeck hwritable hlawful hroot
  obtain rfl : text' = text := Except.ok.inj (hwrite'.symm.trans hwrite)
  have hcut : Deck.cut .elegant text'.toList = ⟨clauses, some (d.title.getD root)⟩ := by
    rw [String.ofList_toList] at hcut
    rw [htext, ← hcut, List.flatMap_cons, List.append_assoc]
    simp only [titleLine, String.toList_append]
    rfl
  exact readDeck_of_cut h.toPlainNamed hlawful hroot hexpressible (congrArg Cut.clauses hcut)
    (by rw [hcut]) hmap

/-- A validated document with a root and legible names is written as an elegant deck if each of its
multipoles has at most one strength, and not otherwise. From the deck is read what it says: its
title or else the name of its root, its root, its elements without remarks, multipoles with the
strength at every order, and for each lattice the names that it refers to. What has been read is
written as the same deck. The order of a strength is read as a float, which is exact below `2 ^ 53`;
a multipole with more strengths than that would take more than `2 ^ 56` bytes. -/
theorem readDeck_writeDeck_elegant (h : d.Validated) (hroot : d.root = some root)
    (hlegible : d.Legible) :
    ((∃ text, d.writeDeck .elegant = .ok text) ↔ ∀ e ∈ d.elements, e.body.OneOrder) ∧
    ∀ text, d.writeDeck .elegant = .ok text →
      (∀ e ∈ d.elements, ∀ knl ksl, e.body = .multipole knl ksl → knl.length ≤ 2 ^ 53) →
      ∃ d', readDeck .elegant text = (.ok d', []) ∧
        d'.version = ⟨3, 0⟩ ∧ d'.title = some (d.title.getD root) ∧ d'.info = none ∧
        d'.root = some root ∧
        List.Forall₂ (fun e e' => e'.name = e.name ∧ e'.info = none ∧
          e.body.SameStrengths e'.body) d.elements d'.elements ∧
        d'.lattices.Perm (d.lattices.map .spliced) ∧ d'.extras = [] ∧
        d'.writeDeck .elegant = .ok text := by
  have hlawful := lawful_of_validated h
  have hwritable : (∀ e ∈ d.elements, e.Writable .elegant) ↔ ∀ e ∈ d.elements, e.body.OneOrder :=
    ⟨fun h e he => h e he rfl, fun h e he _ => h e he⟩
  refine ⟨⟨fun ⟨text, hwrite⟩ => hwritable.1 (writable_of_writeDeck hwrite), fun hone => ?_⟩,
    fun text hwrite horders => ?_⟩
  · obtain ⟨text, hwrite, -⟩ := exists_writeDeck (hwritable.2 hone) hlawful hroot
    exact ⟨text, hwrite⟩
  · have hwrites := writable_of_writeDeck hwrite
    have hone := hwritable.1 hwrites
    have hexpressible : ∀ e ∈ d.elements, e.Expressible .elegant := fun e he =>
      ⟨hwrites e he, fun _ => horders e he⟩
    have hperm : ((d.kept .elegant).inDeck root).lattices.Perm (d.lattices.map .spliced) :=
      (hlawful.kept .elegant).inDependencyOrder_perm.map _
    refine ⟨_, readDeck_of_writeDeck hlegible hlawful hroot hexpressible hwrite, rfl, rfl, rfl, rfl,
      ?_, hperm, rfl, by rw [writeDeck_kept hwrites hlawful hroot, hwrite]⟩
    show List.Forall₂ _ d.elements ((d.elements.map (·.kept .elegant)).map Element.bare)
    rw [List.forall₂_map_right_iff, List.forall₂_map_right_iff, List.forall₂_same]
    exact fun e he => ⟨rfl, rfl, (hone e he).sameStrengths⟩

/-- Parts of a document with a title, with zeros around the one strength of a multipole, and with a
multipole that has none. -/
def singlePoleParts : Builder :=
  (((((Builder.empty.title "one (order) & \"more\"").element
    ⟨"S1", some "thin", .multipole [0, 0, -0.5, 0] (some [-0.0])⟩).element
    ⟨"S2", none, .multipole [] none⟩).element
    ⟨"CAV", none, .cavity 1 none (some 5e8) (some 90)⟩).lattice
    ⟨"LINE1", [.group [.name "S1", .name "CAV"], .name "S2"]⟩).root "LINE1"

theorem validated_singlePoleParts : singlePoleParts.document.Validated := by
  have hreachable : singlePoleParts.Reachable := by
    repeat' constructor
  refine .built hreachable (Builder.build_eq_ok_iff.2 ⟨rfl, ?_, rfl⟩)
  rw [← passes_findings_iff, ← accepted_iff]
  decide +kernel

theorem legible_singlePoleParts : singlePoleParts.document.Legible where
  elementNames := by decide +kernel
  latticeNames := by decide +kernel
  items := by decide +kernel
  title := by
    rintro title ⟨⟩
    exact ⟨by simp, by simp [isBlank], by simp [isBlank]⟩

/-- `readDeck_writeDeck_elegant` for these parts: the strength comes back at its order, and the one
multipole that has none comes back with a zero. -/
theorem readDeck_writeDeck_elegant_singlePoleParts : ∃ text d',
    singlePoleParts.document.writeDeck .elegant = .ok text ∧
    readDeck .elegant text = (.ok d', []) ∧ d'.title = some "one (order) & \"more\"" ∧
    List.Forall₂ (fun e e' => e'.name = e.name ∧ e'.info = none ∧ e.body.SameStrengths e'.body)
      singlePoleParts.document.elements d'.elements := by
  obtain ⟨hiff, hread⟩ := @readDeck_writeDeck_elegant singlePoleParts.document "LINE1"
    validated_singlePoleParts rfl legible_singlePoleParts
  obtain ⟨text, hwrite⟩ := hiff.2 (by decide +kernel)
  have horders : ∀ e ∈ singlePoleParts.document.elements, ∀ knl ksl,
      e.body = .multipole knl ksl → knl.length ≤ 2 ^ 53 := by
    intro e he knl ksl hbody
    rcases List.mem_cons.1 he with rfl | he
    · cases hbody
      decide
    rcases List.mem_cons.1 he with rfl | he
    · cases hbody
      decide
    obtain rfl := List.mem_singleton.1 he
    cases hbody
  obtain ⟨d', hd', -, htitle, -, -, helements, -⟩ := hread text hwrite horders
  exact ⟨text, d', hwrite, hd', htitle, helements⟩

end Document

end Beamline
