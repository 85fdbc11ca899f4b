import Beamline.Proofs.Deck.Answers
import Beamline.Proofs.Deck.Places
import Beamline.Proofs.Deck.Reader

/-!
# What comes out of reading a deck

* `sessionOf` : what the clauses of a deck leave, or the failure of one of them;
* `startsBy_of_sessionOf` : the line of the failure is one of the deck;
* `Document.readDeck_outcome` : reading a deck gives a lawful document, the flaw of a clause on one
  of the lines of the deck, or the error that the document breaks rules.
-/

namespace Beamline

namespace Deck

/-- What is left of a deck when all of its clauses are carried out, or the first failure. -/
def sessionOf (d : Dialect) (text : String) : Except Failure Session :=
  Session.clauses d { title := (cut d text.toList).title } (cut d text.toList).clauses

theorem formed_of_sessionOf {d : Dialect} {text : String} {s : Session}
    (h : sessionOf d text = .ok s) : s.Formed :=
  Session.formed_of_clauses (fun _ hm => absurd hm List.not_mem_nil) h

theorem startsBy_of_sessionOf {d : Dialect} {text : String} {f : Failure}
    (h : sessionOf d text = .error f) :
    1 ≤ f.line ∧ f.line ≤ (Deck.lines text.toList).length := by
  obtain ⟨c, hc, hline⟩ := Session.clauses_raises_line _ f h
  rw [hline]
  exact startsBy_cut hc

end Deck

open Deck

/-! ## Reading -/

namespace Document

theorem readDeck_of_error {d : Dialect} {text : String} {f : Deck.Failure}
    (h : sessionOf d text = .error f) :
    readDeck d text = (.error (.importing d f.line f.flaw), f.notes) := by
  rw [sessionOf] at h
  rw [readDeck, h]

theorem readDeck_of_ok {d : Dialect} {text : String} {s : Session} {es : List Element}
    (h : sessionOf d text = .ok s) (hes : s.elementList = .ok es) :
    readDeck d text = ((s.builder es).build, s.notes) := by
  rw [sessionOf] at h
  rw [readDeck, h]
  dsimp only
  rw [Session.document, hes]

/-- Reading a deck gives a lawful document, or the flaw of a clause with the line where it starts,
or the error of the document that was built. The elements that were defined can always be built, and
no error is an internal one. (A reversal without an end is the flaw of its clause here.) -/
theorem readDeck_outcome (d : Dialect) (text : String) :
    (∀ s, sessionOf d text = .ok s → ∃ es, s.elementList = .ok es) ∧
    (∀ gap, (readDeck d text).1 ≠ .error (.internal gap)) ∧
    ((∃ doc, (readDeck d text).1 = .ok doc ∧ doc.Lawful) ∨
      (∃ f, sessionOf d text = .error f ∧
        (readDeck d text).1 = .error (.importing d f.line f.flaw) ∧
        1 ≤ f.line ∧ f.line ≤ (Deck.lines text.toList).length) ∨
      ∃ s es e, sessionOf d text = .ok s ∧ s.elementList = .ok es ∧
        (s.builder es).build = .error e ∧ (readDeck d text).1 = .error e ∧ e.IsVerdict) := by
  refine ⟨fun s hs => Session.exists_elementList (formed_of_sessionOf hs), ?_⟩
  cases hsession : sessionOf d text with
  | error f =>
    rw [readDeck_of_error hsession]
    exact ⟨nofun, .inr (.inl ⟨f, rfl, rfl, startsBy_of_sessionOf hsession⟩)⟩
  | ok s =>
    obtain ⟨es, hes⟩ := Session.exists_elementList (formed_of_sessionOf hsession)
    have hread := readDeck_of_ok hsession hes
    rw [hread]
    cases hbuild : (s.builder es).build with
    | error e =>
      have hverdict := (s.builder es).build_raises e hbuild
      refine ⟨fun gap hgap => ?_, .inr (.inr ⟨s, es, e, rfl, hes, hbuild, rfl, hverdict⟩)⟩
      cases hgap
      cases hverdict
    | ok doc =>
      rw [hbuild] at hread
      exact ⟨nofun, .inl ⟨doc, rfl, lawful_of_validated (validated_of_readDeck hread)⟩⟩

end Document

end Beamline
