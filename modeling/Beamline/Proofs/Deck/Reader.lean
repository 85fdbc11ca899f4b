import Beamline.Deck.Reader
import Beamline.Proofs.Document.Builder

/-!
# Documents that are read from decks

* `Document.lattices_builder` : the lattices that are built from a session are its lines;
* `Document.elements_builder` : the elements do not depend on the rest of the session;
* `Document.validated_of_readDeck` : whatever is read from a deck has been validated;
* `Document.Obtained` : documents that have been decoded, built or read, and
  `Document.lawful_of_obtained` : these keep the rules.
-/

namespace Beamline.Document

open Deck

variable {d : Document}

theorem reachable_builder (s : Session) (es : List Element) : (s.builder es).Reachable := by
  unfold Session.builder
  have hstart : ((s.title.map Builder.empty.title).getD .empty).Reachable := by
    cases s.title with
    | none => exact .empty
    | some title => exact Builder.Reachable.empty.title title
  have helements := Builder.Reachable.foldl (fun _ e hb => hb.element e) es _ hstart
  have hparts := Builder.Reachable.foldl (fun _ (l : String × List String) hb =>
    hb.lattice ⟨l.1, l.2.map .name⟩) s.lines _ helements
  cases s.root <|> s.lastLine with
  | none => exact hparts
  | some root => exact hparts.root root

/-- What is read from a deck has been built from a session that took in all of it, and from the
elements of this session. -/
theorem exists_elementList_of_readDeck {dialect : Dialect} {text : String} {notes : List Note}
    (h : readDeck dialect text = (.ok d, notes)) : ∃ (s : Session) (es : List Element),
      Session.clauses dialect { title := (cut dialect text.toList).title }
        (cut dialect text.toList).clauses = .ok s ∧ s.elementList = .ok es ∧
      (s.builder es).build = .ok d := by
  unfold readDeck at h
  dsimp only at h
  split at h
  · cases h
  · rename_i s hs
    have hdocument := (Prod.mk.inj h).1
    unfold Session.document at hdocument
    split at hdocument
    · cases hdocument
    · rename_i es hes
      exact ⟨s, es, hs, hes, hdocument⟩

theorem exists_session_of_readDeck {dialect : Dialect} {text : String} {notes : List Note}
    (h : readDeck dialect text = (.ok d, notes)) : ∃ (s : Session) (es : List Element),
      Session.clauses dialect { title := (cut dialect text.toList).title }
        (cut dialect text.toList).clauses = .ok s ∧ (s.builder es).build = .ok d := by
  obtain ⟨s, es, hs, -, hbuild⟩ := exists_elementList_of_readDeck h
  exact ⟨s, es, hs, hbuild⟩

theorem lattices_foldl_element (es : List Element) : ∀ b : Builder,
    (es.foldl Builder.element b).document.lattices = b.document.lattices := by
  induction es with
  | nil => exact fun b => rfl
  | cons e es ih =>
    intro b
    rw [List.foldl_cons, ih, Builder.element]
    split <;> rfl

/-- The lattices that are built from a session are its lines. -/
theorem lattices_builder {s : Session} (hnodup : (Table.keys s.lines).Nodup) (es : List Element) :
    (s.builder es).document.lattices = s.lines.map fun l => ⟨l.1, l.2.map .name⟩ := by
  have hstart : ∀ b : Builder, b.document.lattices = [] →
      (s.lines.foldl (fun b l => b.lattice ⟨l.1, l.2.map .name⟩) b).document.lattices =
        s.lines.map fun l => ⟨l.1, l.2.map .name⟩ := by
    intro b hb
    have hfoldl : s.lines.foldl (fun b l => b.lattice ⟨l.1, l.2.map .name⟩) b =
        (s.lines.map fun l => ⟨l.1, l.2.map .name⟩).foldl Builder.lattice b :=
      (List.foldl_map ..).symm
    have hnames : (b.document.lattices.map (·.name) ++
        (s.lines.map fun l => (⟨l.1, l.2.map .name⟩ : Lattice)).map (·.name)).Nodup := by
      rw [hb, List.map_nil, List.nil_append, List.map_map]
      exact hnodup
    rw [hfoldl, Builder.foldl_lattice _ _ hnames, hb]
    rfl
  have helements : ∀ b : Builder, b.document.lattices = [] →
      (es.foldl Builder.element b).document.lattices = [] :=
    fun b hb => (lattices_foldl_element es b).trans hb
  unfold Session.builder
  have hroot : ∀ (b : Builder) (o : Option String),
      ((o.map b.root).getD b).document.lattices = b.document.lattices := by
    intro b o
    cases o <;> rfl
  rw [hroot]
  apply hstart
  apply helements
  cases s.title <;> rfl

theorem elements_foldl_element (es : List Element) : ∀ b b' : Builder,
    b.document.elements = b'.document.elements →
    (es.foldl Builder.element b).document.elements =
      (es.foldl Builder.element b').document.elements := by
  induction es with
  | nil => exact fun b b' h => h
  | cons e es ih =>
    intro b b' h
    apply ih
    unfold Builder.element element?
    rw [h]
    split
    · exact h
    · rfl

theorem elements_foldl_lattice (ls : List (String × List String)) : ∀ b : Builder,
    (ls.foldl (fun b l => b.lattice ⟨l.1, l.2.map .name⟩) b).document.elements =
      b.document.elements := by
  induction ls with
  | nil => exact fun b => rfl
  | cons l ls ih =>
    intro b
    rw [List.foldl_cons, ih, Builder.lattice]
    split <;> rfl

/-- The elements that are built from a session do not depend on the rest of it. -/
theorem elements_builder (s t : Session) (es : List Element) :
    (s.builder es).document.elements = (t.builder es).document.elements := by
  have hall : ∀ s : Session, (s.builder es).document.elements =
      (es.foldl Builder.element .empty).document.elements := by
    intro s
    have hroot : ∀ (b : Builder) (o : Option String),
        ((o.map b.root).getD b).document.elements = b.document.elements := by
      intro b o
      cases o <;> rfl
    unfold Session.builder
    rw [hroot, elements_foldl_lattice]
    apply elements_foldl_element
    cases s.title <;> rfl
  rw [hall, hall]

/-- What is read from a deck of either dialect has been built from its parts. -/
theorem validated_of_readDeck {dialect : Dialect} {text : String} {notes : List Note}
    (h : readDeck dialect text = (.ok d, notes)) : d.Validated := by
  obtain ⟨s, es, -, hbuild⟩ := exists_session_of_readDeck h
  exact .built (reachable_builder s es) hbuild

/-- The documents that have been decoded, built, or read from a deck. -/
inductive Obtained (d : Document) : Prop where
  | decoded {policy : Policy} {text : String} : decode policy text = .ok d → d.Obtained
  | built {b : Builder} : b.Reachable → b.build = .ok d → d.Obtained
  | read {dialect : Dialect} {text : String} {notes : List Note} :
      readDeck dialect text = (.ok d, notes) → d.Obtained

theorem lawful_of_obtained (h : d.Obtained) : d.Lawful := by
  cases h with
  | decoded h => exact lawful_of_validated (.decoded h)
  | built hb h => exact lawful_of_validated (.built hb h)
  | read h => exact lawful_of_validated (validated_of_readDeck h)

end Beamline.Document
