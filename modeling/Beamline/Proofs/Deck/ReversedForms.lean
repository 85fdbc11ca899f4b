import Beamline.Proofs.Deck.InStep
import Beamline.Proofs.Deck.Meaning

/-!
# What reversed lines are expanded to

* `Document.reading` : the names of the elements that a name stands for in a document;
* `DefinedFirst` : definitions in which the lines that a body names are there when it is read;
* `Untouched` : lines whose reversed forms stay what they were made of;
* `Document.expand_eq_reading` : an item behind a minus sign contributes the reverse of what its name
  is expanded to, if it leads to untouched lines;
* `Document.not_expand_eq_reading` : not so if a line has the name of a reversed form.
-/

namespace Beamline

open Deck Table Relation

/-! ## Readings -/

namespace Document

variable {d : Document}

/-- What a name stands for in a document: a lattice for the names of its elements in order, any
other name for itself. -/
def reading (d : Document) (s : String) : List String :=
  match d.expand s with
  | .ok es => es.map (·.name)
  | .error _ => [s]

theorem reading_of_expand {s : String} {es : List Element} (h : d.expand s = .ok es) :
    d.reading s = es.map (·.name) := by
  rw [reading, h]

theorem reading_of_ne {s : String} (h : ∀ l ∈ d.lattices, l.name ≠ s) : d.reading s = [s] := by
  rw [reading, expand, lattice?_eq_none h]

theorem Lawful.reading_of_flattens (hlawful : d.Lawful) {items : List Item} {es : List Element}
    (h : d.Flattens items es) : ∀ names : List String, items = names.map .name →
      es.map (·.name) = names.flatMap d.reading := by
  induction h with
  | nil =>
    intro names heq
    rw [List.map_eq_nil_iff.1 heq.symm]
    rfl
  | @element e rest es he _ ih =>
    intro names heq
    obtain ⟨s, names, rfl, hs, hrest⟩ := List.map_eq_cons_iff.1 heq.symm
    cases hs
    rw [List.map_cons, ih names hrest.symm, List.flatMap_cons,
      reading_of_ne fun l hl => (hlawful.distinct e he l hl).symm]
    rfl
  | @lattice l rest inner es hl hinner _ _ ih =>
    intro names heq
    obtain ⟨s, names, rfl, hs, hrest⟩ := List.map_eq_cons_iff.1 heq.symm
    cases hs
    rw [List.map_append, ih names hrest.symm, List.flatMap_cons,
      reading_of_expand (hlawful.expand_eq hl hinner)]
  | group =>
    intro names heq
    obtain ⟨s, names, rfl, hs, -⟩ := List.map_eq_cons_iff.1 heq.symm
    cases hs

/-! ## Lattices in step -/

section Lattices

variable {lines : Lines} {late trusted : String → Prop}
  {definitions : List (String × List LineItem)}

theorem reading_of_notMem (hlattices : d.lattices = lines.map fun l => ⟨l.1, l.2.map .name⟩)
    {s : String} (h : s ∉ keys lines) : d.reading s = [s] := by
  apply reading_of_ne
  rintro l hl rfl
  exact h (name_mem_keys hlattices hl)

/-- Trusted names turned round stand for what the names stand for, turned round. -/
theorem Flattens.reversed (hlawful : d.Lawful)
    (hlattices : d.lattices = lines.map fun l => ⟨l.1, l.2.map .name⟩)
    (hlines : InStep lines late trusted definitions lines) {items : List Item} {es : List Element}
    (h : d.Flattens items es) : ∀ names : List String, items = names.map .name →
      (∀ s ∈ names, s ∈ keys lines → trusted s ∧ reversedName s ∈ keys lines) →
      d.Flattens ((names.reverse.map (reversedItem lines)).map .name) es.reverse := by
  induction h with
  | nil =>
    intro names heq _
    rw [List.map_eq_nil_iff.1 heq.symm]
    exact .nil
  | @element e rest es he _ ih =>
    intro names heq hnames
    obtain ⟨s, names, rfl, hs, hrest⟩ := List.map_eq_cons_iff.1 heq.symm
    cases hs
    rw [List.forall_mem_cons] at hnames
    have hatom : e.name ∉ keys lines := by
      intro hmem
      obtain ⟨names', hlookup⟩ := exists_lookup hmem
      exact hlawful.distinct e he _ (mem_lattices_of_lookup hlattices hlookup) rfl
    rw [List.reverse_cons, List.reverse_cons, List.map_append, List.map_append,
      List.map_singleton, reversedItem_of_notMem hatom]
    exact (ih names hrest.symm hnames.2).append (.element he .nil)
  | @lattice l rest inner es hl _ _ ihinner ih =>
    intro names heq hnames
    obtain ⟨s, names, rfl, hs, hrest⟩ := List.map_eq_cons_iff.1 heq.symm
    cases hs
    rw [List.forall_mem_cons] at hnames
    have hmem := name_mem_keys hlattices hl
    obtain ⟨htrusted, hthere⟩ := hnames.1 hmem
    obtain ⟨items, hitems, hturned, hdeep⟩ := hlines.mirrors l.name htrusted hthere
    have heq' := List.inj_on_of_nodup_map hlawful.latticeNames hl
      (mem_lattices_of_lookup hlattices hitems) rfl
    have hinner := ihinner items (congrArg Lattice.items heq') hdeep
    rw [List.reverse_cons, List.map_append, List.map_append, List.reverse_append,
      List.map_singleton, reversedItem_of_mem hmem, ← List.append_nil inner.reverse]
    exact (ih names hrest.symm hnames.2).append
      (.lattice (mem_lattices_of_lookup hlattices hturned) hinner .nil)
  | group =>
    intro names heq _
    obtain ⟨s, names, rfl, hs, -⟩ := List.map_eq_cons_iff.1 heq.symm
    cases hs

/-- The reversed form of a trusted line stands for what the line stands for, turned round. -/
theorem reading_reversedName (hlawful : d.Lawful)
    (hlattices : d.lattices = lines.map fun l => ⟨l.1, l.2.map .name⟩)
    (hlines : InStep lines late trusted definitions lines) {s : String} (hs : trusted s)
    (hthere : reversedName s ∈ keys lines) : d.reading (reversedName s) = (d.reading s).reverse := by
  obtain ⟨items, hitems, hturned, hdeep⟩ := hlines.mirrors s hs hthere
  have hl := mem_lattices_of_lookup hlattices hitems
  have hl' := mem_lattices_of_lookup hlattices hturned
  obtain ⟨es, hes⟩ := hlawful.exists_flattens hl
  have hes' := hes.reversed hlawful hlattices hlines items rfl hdeep
  rw [reading_of_expand (hlawful.expand_eq hl hes), reading_of_expand (hlawful.expand_eq hl' hes'),
    List.map_reverse]

end Lattices

end Document

/-! ## Decks -/

namespace Deck

/-- Definitions in which a name in a body that is that of a line in the end is that of a line
already when the body is read. -/
def DefinedFirst (definitions : List (String × List LineItem)) : Prop :=
  ∀ before name items after lines last, definitions = before ++ (name, items) :: after →
    before.foldlM addLine [] = .ok lines → definitions.foldlM addLine [] = .ok last →
    ∀ s ∈ LineItem.namesOf items, s ∈ keys last → s ∈ keys lines

/-- The reversed forms of `s` are not defined themselves, and `s` is not defined, or defined again,
once its reversed form has been made. -/
structure Untouched (definitions : List (String × List LineItem)) (s : String) : Prop where
  unlabelled : ∀ n, reversedName^[n + 1] s ∉ keys definitions
  steady : ∀ before items after lines, definitions = before ++ (s, items) :: after →
    (before ++ [(s, items)]).foldlM addLine [] = .ok lines → reversedName s ∉ keys lines

variable {definitions : List (String × List LineItem)} {lines last : Lines}

theorem Untouched.reversedName {s : String} (h : Untouched definitions s) :
    Untouched definitions (reversedName s) where
  unlabelled := fun n => h.unlabelled (n + 1)
  steady := by
    rintro before items after lines rfl -
    exact absurd (mem_keys_of_mem (List.mem_append_right _ List.mem_cons_self)) (h.unlabelled 0)

/-- Where the lines that a body names are there, a line leads to such lines only. -/
theorem InStep.mem_of_reach {all : Lines} {trusted : String → Prop}
    (h : InStep all (fun _ => False) trusted definitions lines) {s m : String}
    (hs : s ∈ keys all → s ∈ keys lines) (hm : ReflTransGen (Holds lines) s m)
    (hall : m ∈ keys all) : m ∈ keys lines := by
  induction hm with
  | refl => exact hs hall
  | tail _ hbm _ =>
    obtain ⟨items, hitems, hm⟩ := hbm
    exact (h.closed _ hitems _ hm hall).resolve_right id

/-- The reversed forms of untouched lines are in step if the lines that a body names are there when
it is read, and what it reverses leads to untouched lines. -/
theorem ruled_of_untouched (hlast : definitions.foldlM addLine [] = .ok last)
    (hfirst : DefinedFirst definitions)
    (huntouched : ∀ before name items after lines,
      definitions = before ++ (name, items) :: after → before.foldlM addLine [] = .ok lines →
      ∀ s, (true, s) ∈ LineItem.placesOf false items →
        ∀ m ∈ keys lines, ReflTransGen (Holds lines) s m → Untouched definitions m) :
    Ruled last (fun _ => False) (Untouched definitions) definitions where
  turned := fun _ h => h.reversedName
  unlabelled := fun _ h => h.unlabelled 0
  steady := by
    intro before name items after lines names lines' heq hbefore harrange _ hname hmem
    refine hname.steady before items after _ heq
      (foldlM_append_eq_ok.2 ⟨lines, hbefore, ?_⟩) (keys_subset_put name names hmem)
    exact foldlM_cons_eq_ok.2 ⟨names, lines', harrange, rfl⟩
  ripe := by
    intro before name items after lines heq hbefore hlines p hp
    have hnames : p.2 ∈ LineItem.namesOf items := by
      rw [← names_placesOf false items]
      exact List.mem_map_of_mem hp
    have hpresent := hfirst before name items after lines last heq hbefore hlast p.2 hnames
    refine ⟨fun hall => .inl (hpresent hall), fun hunder m hm hall => ?_⟩
    have hmem := hlines.mem_of_reach hpresent hm hall
    refine ⟨huntouched before name items after lines heq hbefore p.2 ?_ m hmem hm, hmem⟩
    rw [← hunder]
    exact hp

end Deck

namespace Document

/-- In a document that is read from a deck in which every line is defined before it is named, the
line that a label is defined for last is expanded to what its body means. There each name means what
it is expanded to in the document, and an item behind a minus sign the reverse of it. This takes that
what stands behind a minus sign leads to untouched lines: their reversed forms have no definitions
of their own, and they are not defined again when their reversed forms have been made. -/
theorem expand_eq_reading {d : Document} {dialect : Dialect} {text : String} {notes : List Note}
    (h : readDeck dialect text = (.ok d, notes))
    (hfirst : DefinedFirst (lineDefinitions dialect text))
    (huntouched : ∀ before name items after lines,
      lineDefinitions dialect text = before ++ (name, items) :: after →
      before.foldlM addLine [] = .ok lines →
      ∀ s, (true, s) ∈ LineItem.placesOf false items →
        ∀ m ∈ keys lines, ReflTransGen (Holds lines) s m →
          Untouched (lineDefinitions dialect text) m) :
    ∀ before name items after, lineDefinitions dialect text = before ++ (name, items) :: after →
      name ∉ keys after → (d.expand name).map (·.map Element.name) =
        .ok (LineItem.meaningOf d.reading items) := by
  obtain ⟨last, hlast, hlattices⟩ := exists_lines_of_readDeck h
  have hruled := ruled_of_untouched hlast hfirst huntouched
  have hstep := hruled.inStep _ (List.append_nil _).symm hlast (List.Subset.refl _)
  replace hlattices := hlattices hstep.nodup
  have hlawful := lawful_of_obtained (.read h)
  intro before name items after heq hafter
  obtain ⟨lines, names, lines', hbefore, harrange, hsub, hlookup⟩ :=
    exists_arrange_of_split hlast heq
  have hsub' : keys lines' ⊆ keys last := List.Subset.trans (keys_subset_put name names) hsub
  have hlines := hruled.inStep before heq hbefore
    (List.Subset.trans (extends_of_arrange _ _ harrange).subset hsub')
  -- the reversed forms that the body names are in step in the end
  have hkeeps : Keeps (keys last) (InStep last (fun _ => False) _ before) _ id d.reading :=
    keeps_inStep hruled.turned
      (fun t ht _ hthere => by
        rw [reading_reversedName hlawful hlattices hstep ht hthere, List.map_id])
      (fun t hatom => by
        rw [reading_of_notMem hlattices hatom]
        rfl)
  have hvalue := (hkeeps.arrange lines false items hlines
    (hruled.ripe before name items after lines heq hbefore hlines) harrange hsub').value
  have hl := mem_lattices_of_lookup hlattices (hlookup hafter)
  obtain ⟨es, hes⟩ := hlawful.exists_flattens hl
  rw [hlawful.expand_eq hl hes, ← valueOf_id, ← hvalue]
  exact congrArg Except.ok (hlawful.reading_of_flattens hes names rfl)

/-- A deck in which a line is defined again before it is reversed, and another has the name of a
reversed form. -/
def layeredDeck : String :=
  "Q: MARK\nD: MARK\nA: LINE=(D)\nA: LINE=(Q, D)\nC_REV: LINE=(A)\nB: LINE=(2*(-A, C_REV))\n"

/-- The body of the line `B` of this deck. -/
def layeredBody : List LineItem :=
  [.group 2 false [.name 1 true "A", .name 1 false "C_REV"]]

/-- The definitions of lines in this deck. -/
def layeredDefinitions : List (String × List LineItem) :=
  [("A", [.name 1 false "D"]), ("A", [.name 1 false "Q", .name 1 false "D"]),
    ("C_REV", [.name 1 false "A"]), ("B", layeredBody)]

theorem lineDefinitions_layeredDeck :
    lineDefinitions .elegant layeredDeck = layeredDefinitions := by
  cbv

/-- What is read from this deck. -/
def layeredDocument : Document where
  version := .current
  title := none
  info := none
  root := some "B"
  elements := [⟨"Q", none, .marker⟩, ⟨"D", none, .marker⟩]
  lattices :=
    [⟨"A", ["Q", "D"].map .name⟩, ⟨"C_REV", ["A"].map .name⟩, ⟨"A_REV", ["D", "Q"].map .name⟩,
      ⟨"B", ["A_REV", "C_REV", "A_REV", "C_REV"].map .name⟩]
  extras := []

theorem readDeck_layeredDeck : readDeck .elegant layeredDeck = (.ok layeredDocument, []) := by
  unfold readDeck
  -- the values of the constants are not needed
  generalize constants = vars
  cbv

theorem definedFirst_layeredDefinitions : DefinedFirst layeredDefinitions := by
  intro before name items after lines last heq hbefore hlast s hs hmem
  apply labels_subset hbefore
  have heval : layeredDefinitions.foldlM addLine [] =
      .ok [("A", ["Q", "D"]), ("C_REV", ["A"]), ("A_REV", ["D", "Q"]),
        ("B", ["A_REV", "C_REV", "A_REV", "C_REV"])] := by
    cbv
  rw [heval] at hlast
  cases hlast
  clear hbefore heval
  revert s
  rcases before with _ | ⟨_, _ | ⟨_, _ | ⟨_, _ | ⟨_, before⟩⟩⟩⟩
  · cases heq
    decide
  · cases heq
    decide
  · cases heq
    decide
  · cases heq
    decide
  · simp [layeredDefinitions] at heq

/-- Up to the last definition of this deck nothing is reversed. -/
theorem keys_subset_layeredDefinitions {before after : List (String × List LineItem)}
    {lines : Lines} (heq : layeredDefinitions = before ++ after) (hafter : after ≠ [])
    (hlines : before.foldlM addLine [] = .ok lines) : keys lines ⊆ ["A", "C_REV"] := by
  rcases before with _ | ⟨_, _ | ⟨_, _ | ⟨_, _ | ⟨_, before⟩⟩⟩⟩
  · cases hlines
    exact List.nil_subset _
  · cases heq
    have heval : [("A", [.name 1 false "D"])].foldlM addLine [] = .ok [("A", ["D"])] := by
      cbv
    rw [heval] at hlines
    cases hlines
    decide
  · cases heq
    have heval : [("A", [.name 1 false "D"]), ("A", [.name 1 false "Q", .name 1 false "D"])].foldlM
        addLine [] = .ok [("A", ["Q", "D"])] := by
      cbv
    rw [heval] at hlines
    cases hlines
    decide
  · cases heq
    have heval : [("A", [.name 1 false "D"]), ("A", [.name 1 false "Q", .name 1 false "D"]),
        ("C_REV", [.name 1 false "A"])].foldlM addLine [] =
          .ok [("A", ["Q", "D"]), ("C_REV", ["A"])] := by
      cbv
    rw [heval] at hlines
    cases hlines
    decide
  · simp only [layeredDefinitions, List.cons_append, List.cons.injEq] at heq
    exact absurd (List.append_eq_nil_iff.1 heq.2.2.2.2.symm).2 hafter

theorem untouched_layeredDefinitions {s : String} (hs : s ∈ ["A", "C_REV"]) :
    Untouched layeredDefinitions s := by
  have hsuffix : ∀ t ∈ ["A", "B", "C"], ∀ x, reversedName x ≠ t := by
    have hlist : ∀ t ∈ ["A", "B", "C"], ¬ "_REV".toList <:+ t.toList := by decide
    exact fun t ht x => (ne_reversedName_of_suffix (hlist t ht) x).symm
  -- neither is `C`, nor is `C` a reversed form
  have hC : ∀ n, reversedName^[n] s ≠ "C" := by
    rintro (_ | n)
    · rintro rfl
      exact absurd hs (by decide)
    · rw [Function.iterate_succ_apply']
      exact hsuffix "C" (by decide) _
  constructor
  · intro n hmem
    rw [Function.iterate_succ_apply'] at hmem
    simp only [layeredDefinitions, keys, List.map_cons, List.map_nil, List.mem_cons,
      List.not_mem_nil, or_false] at hmem
    rcases hmem with hmem | hmem | hmem | hmem
    · exact hsuffix "A" (by decide) _ hmem
    · exact hsuffix "A" (by decide) _ hmem
    · exact hC n (reversedName_inj.1 hmem)
    · exact hsuffix "B" (by decide) _ hmem
  · intro before items after lines heq hlines hmem
    rw [List.append_cons] at heq
    have hafter : after ≠ [] := by
      rintro rfl
      rw [List.append_nil] at heq
      have hsplit : layeredDefinitions.dropLast ++ [("B", layeredBody)] = layeredDefinitions := rfl
      obtain ⟨-, hlast⟩ := List.append_inj' (hsplit.trans heq) rfl
      cases hlast
      exact absurd hs (by decide)
    have hmem := keys_subset_layeredDefinitions heq hafter hlines hmem
    simp only [List.mem_cons, List.not_mem_nil, or_false] at hmem
    exact hmem.elim (hsuffix "A" (by decide) s) fun hmem => hC 0 (reversedName_inj.1 hmem)

/-- `expand_eq_reading` for this deck: the line that is reversed is the one that was defined last. -/
theorem expand_layeredDeck : (layeredDocument.expand "B").map (·.map Element.name) =
    .ok ["D", "Q", "Q", "D", "D", "Q", "Q", "D"] := by
  have hexpand := expand_eq_reading readDeck_layeredDeck
    (by
      rw [lineDefinitions_layeredDeck]
      exact definedFirst_layeredDefinitions)
    (by
      rw [lineDefinitions_layeredDeck]
      intro before name items after lines heq hbefore s hs m hm _
      exact untouched_layeredDefinitions
        (keys_subset_layeredDefinitions heq (List.cons_ne_nil _ _) hbefore hm))
    [("A", [.name 1 false "D"]), ("A", [.name 1 false "Q", .name 1 false "D"]),
      ("C_REV", [.name 1 false "A"])] "B" layeredBody [] lineDefinitions_layeredDeck
    List.not_mem_nil
  rw [hexpand]
  cbv

/-! ## Lines with the names of reversed forms -/

/-- A deck in which a line that is reversed finds its reversed form taken. -/
def namesakeDeck : String :=
  "Q: MARK\nD: MARK\nA: LINE=(Q, D)\nA_REV: LINE=(Q, D)\nB: LINE=(-A)\n"

/-- The definitions of lines in this deck. -/
def namesakeDefinitions : List (String × List LineItem) :=
  [("A", [.name 1 false "Q", .name 1 false "D"]), ("A_REV", [.name 1 false "Q", .name 1 false "D"]),
    ("B", [.name 1 true "A"])]

theorem lineDefinitions_namesakeDeck :
    lineDefinitions .elegant namesakeDeck = namesakeDefinitions := by
  cbv

/-- What is read from this deck. -/
def namesakeDocument : Document where
  version := .current
  title := none
  info := none
  root := some "B"
  elements := [⟨"Q", none, .marker⟩, ⟨"D", none, .marker⟩]
  lattices := [⟨"A", ["Q", "D"].map .name⟩, ⟨"A_REV", ["Q", "D"].map .name⟩,
    ⟨"B", ["A_REV"].map .name⟩]
  extras := []

theorem readDeck_namesakeDeck : readDeck .elegant namesakeDeck = (.ok namesakeDocument, []) := by
  unfold readDeck
  generalize constants = vars
  cbv

theorem definedFirst_namesakeDefinitions : DefinedFirst namesakeDefinitions := by
  intro before name items after lines last heq hbefore hlast s hs hmem
  apply labels_subset hbefore
  have heval : namesakeDefinitions.foldlM addLine [] =
      .ok [("A", ["Q", "D"]), ("A_REV", ["Q", "D"]), ("B", ["A_REV"])] := by
    cbv
  rw [heval] at hlast
  cases hlast
  clear hbefore heval
  revert s
  rcases before with _ | ⟨_, _ | ⟨_, _ | ⟨_, before⟩⟩⟩
  · cases heq
    decide
  · cases heq
    decide
  · cases heq
    decide
  · simp [namesakeDefinitions] at heq

/-- It is not true of all decks in which every line is defined before it is named: the line of the
user stands in the place of the reversed form. -/
theorem not_expand_eq_reading : ¬ ∀ (d : Document) (dialect : Dialect) (text : String)
    (notes : List Note), readDeck dialect text = (.ok d, notes) →
      DefinedFirst (lineDefinitions dialect text) →
      ∀ before name items after, lineDefinitions dialect text = before ++ (name, items) :: after →
        name ∉ keys after → (d.expand name).map (·.map Element.name) =
          .ok (LineItem.meaningOf d.reading items) := by
  intro h
  have hexpand := h _ _ _ _ readDeck_namesakeDeck
    (by
      rw [lineDefinitions_namesakeDeck]
      exact definedFirst_namesakeDefinitions)
    [("A", [.name 1 false "Q", .name 1 false "D"]),
      ("A_REV", [.name 1 false "Q", .name 1 false "D"])] "B" [.name 1 true "A"] []
    lineDefinitions_namesakeDeck List.not_mem_nil
  have hleft : (namesakeDocument.expand "B").map (·.map Element.name) = .ok ["Q", "D"] := by
    cbv
  have hright : LineItem.meaningOf namesakeDocument.reading [.name 1 true "A"] = ["D", "Q"] := by
    cbv
  rw [hleft, hright] at hexpand
  exact absurd hexpand (by simp)

end Document

end Beamline
