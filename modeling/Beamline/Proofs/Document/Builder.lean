import Beamline.Document.Builder
import Beamline.Proofs.Document.RoundTrip

/-!
# Validated documents

* `Builder.build_raises` : a builder that does not build tells of broken rules;
* `Document.Lawful.build_eq` : a builder that collected a lawful document builds it;
* `Builder.Reachable` : the builders that the parts of a document lead to;
* `Document.Validated` : documents that have been decoded or built;
* `Document.lawful_of_validated` : these keep the rules.
-/

namespace Beamline

open Validation

/-! ## Building -/

namespace Builder

theorem foldl_element (es : List Element) : ∀ b : Builder,
    (b.document.elements.map (·.name) ++ es.map (·.name)).Nodup → es.foldl element b =
      { b with document := { b.document with elements := b.document.elements ++ es } } := by
  induction es with
  | nil => exact fun b _ => by simp
  | cons e es ih =>
    intro b hnodup
    have hnew : b.document.element? e.name = none :=
      find?_eq_none_iff.2 (notMem_of_nodup hnodup)
    rw [List.foldl_cons, element, hnew, if_neg (by simp), ih _ (by simpa using hnodup)]
    simp

theorem foldl_lattice (ls : List Lattice) : ∀ b : Builder,
    (b.document.lattices.map (·.name) ++ ls.map (·.name)).Nodup → ls.foldl lattice b =
      { b with document := { b.document with lattices := b.document.lattices ++ ls } } := by
  induction ls with
  | nil => exact fun b _ => by simp
  | cons l ls ih =>
    intro b hnodup
    have hnew : b.document.lattice? l.name = none :=
      find?_eq_none_iff.2 (notMem_of_nodup hnodup)
    rw [List.foldl_cons, lattice, hnew, if_neg (by simp), ih _ (by simpa using hnodup)]
    simp

theorem check_eq_ok_iff {policy : Policy} {d : Document} :
    (∃ warnings, d.check policy = .ok warnings) ↔ WellFormed policy d.toJson := by
  rw [← passes_findings_iff, ← accepted_iff]
  unfold Document.check
  by_cases haccepted : (validate policy d.toJson).accepted <;> simp [haccepted]

theorem build_eq_ok_iff {b : Builder} {d : Document} : b.build = .ok d ↔
    b.repeated = [] ∧ WellFormed .standard b.document.toJson ∧ d = b.document := by
  unfold build
  by_cases hrepeated : b.repeated = []
  · rw [hrepeated, ← check_eq_ok_iff]
    show (b.document.check .standard >>= fun _ => pure b.document) = _ ↔ _
    rw [bind_eq_ok]
    constructor
    · rintro ⟨warnings, hwarnings, hd⟩
      exact ⟨rfl, ⟨warnings, hwarnings⟩, (Except.ok.inj hd).symm⟩
    · rintro ⟨-, ⟨warnings, hwarnings⟩, rfl⟩
      exact ⟨warnings, hwarnings, rfl⟩
  · have hempty : b.repeated.isEmpty = false := List.isEmpty_eq_false_iff.2 hrepeated
    rw [hempty]
    constructor
    · intro h
      cases h
    · exact fun h => absurd h.1 hrepeated

/-- What is not built breaks rules. -/
theorem build_raises (b : Builder) : Raises Error.IsVerdict b.build := by
  unfold build
  dsimp only
  split
  · exact .error (Error.isVerdict_ofViolations _)
  · refine Raises.bind ?_ fun warnings _ => .ok _
    unfold Document.check
    dsimp only
    split
    · exact .ok _
    · exact .error (Error.isVerdict_ofViolations _)

end Builder

/-- A builder that collected a lawful document builds it. -/
theorem Document.Lawful.build_eq {d : Document} (h : d.Lawful) (hmeets : d.Meets .standard) :
    Builder.build ⟨d, []⟩ = .ok d :=
  Builder.build_eq_ok_iff.2 ⟨rfl, wellFormed_toJson h hmeets, rfl⟩

/-! ## Validated documents -/

/-- The builders that the parts of a document lead to. -/
inductive Builder.Reachable : Builder → Prop where
  | empty : Reachable .empty
  | title {b : Builder} (h : Reachable b) (s : String) : Reachable (b.title s)
  | info {b : Builder} (h : Reachable b) (s : String) : Reachable (b.info s)
  | root {b : Builder} (h : Reachable b) (s : String) : Reachable (b.root s)
  | element {b : Builder} (h : Reachable b) (e : Element) : Reachable (b.element e)
  | lattice {b : Builder} (h : Reachable b) (l : Lattice) : Reachable (b.lattice l)

/-- The documents that have been decoded or built. -/
inductive Document.Validated (d : Document) : Prop where
  | decoded {policy : Policy} {text : String} : decode policy text = .ok d → d.Validated
  | built {b : Builder} : b.Reachable → b.build = .ok d → d.Validated

namespace Builder.Reachable

variable {b : Builder}

theorem foldl {α : Type} {step : Builder → α → Builder}
    (hstep : ∀ b a, b.Reachable → (step b a).Reachable) (as : List α) :
    ∀ b : Builder, b.Reachable → (as.foldl step b).Reachable := by
  induction as with
  | nil => exact fun _ hb => hb
  | cons a as ih => exact fun b hb => ih _ (hstep b a hb)

theorem version_eq (h : b.Reachable) : b.document.version = .current := by
  induction h with
  | empty => rfl
  | title _ _ ih | info _ _ ih | root _ _ ih => exact ih
  | element _ _ ih | lattice _ _ ih =>
    first | unfold Builder.element | unfold Builder.lattice
    split <;> exact ih

theorem extras_eq (h : b.Reachable) : b.document.extras = [] := by
  induction h with
  | empty => rfl
  | title _ _ ih | info _ _ ih | root _ _ ih => exact ih
  | element _ _ ih | lattice _ _ ih =>
    first | unfold Builder.element | unfold Builder.lattice
    split <;> exact ih

theorem nodup_elements (h : b.Reachable) : (b.document.elements.map (·.name)).Nodup := by
  induction h with
  | empty => exact List.nodup_nil
  | title _ _ ih | info _ _ ih | root _ _ ih => exact ih
  | lattice _ _ ih =>
    unfold Builder.lattice
    split <;> exact ih
  | element _ e ih =>
    unfold Builder.element
    split
    · exact ih
    · rename_i hnone
      rw [Option.not_isSome_iff_eq_none] at hnone
      rw [List.map_append]
      exact nodup_append_singleton ih (find?_eq_none_iff.1 hnone)

theorem nodup_lattices (h : b.Reachable) : (b.document.lattices.map (·.name)).Nodup := by
  induction h with
  | empty => exact List.nodup_nil
  | title _ _ ih | info _ _ ih | root _ _ ih => exact ih
  | element _ _ ih =>
    unfold Builder.element
    split <;> exact ih
  | lattice _ l ih =>
    unfold Builder.lattice
    split
    · exact ih
    · rename_i hnone
      rw [Option.not_isSome_iff_eq_none] at hnone
      rw [List.map_append]
      exact nodup_append_singleton ih (find?_eq_none_iff.1 hnone)

end Builder.Reachable

namespace Document

/-- A document whose raw form is well formed is lawful if its names are distinct. -/
theorem lawful_of_wellFormed {policy : Policy} {d : Document} (h : WellFormed policy d.toJson)
    (hversion : d.version = .current) (hextras : d.extras = [])
    (helementNames : (d.elements.map (·.name)).Nodup)
    (hlatticeNames : (d.lattices.map (·.name)).Nodup) : d.Lawful := by
  obtain ⟨doc, version, elements, lattices, heq, hdoc⟩ := h
  obtain rfl := Json.obj.inj heq
  have hnone : ∀ m ∈ d.extras, m.1 ∉ documentKeys := by simp [hextras]
  have hmembers := members_members hnone
  obtain rfl : d.elementTable = elements := by
    simpa [hmembers.elements] using hdoc.elementTable
  obtain rfl : d.latticeTable = lattices := by
    simpa [hmembers.lattices] using hdoc.latticeTable
  obtain rfl : version = d.version := by
    obtain ⟨text, htext, hspelled⟩ := hdoc.spelled
    rw [hmembers.version] at htext
    cases htext
    rw [← Version.parse?_eq_some_iff, Version.parse?_text (by rw [hversion]; decide)
      (by rw [hversion]; decide)] at hspelled
    exact (Option.some.inj hspelled).symm
  refine lawful_of_wellFormedObject hdoc keys_elementTable rfl hmembers.root (fun e he => ?_)
    helementNames hlatticeNames (by rw [hextras]; exact List.nodup_nil) hnone
  exact Element.lawful_of_wellFormed (hdoc.element _ _ (List.mem_map_of_mem he))

/-- Documents that have been decoded or built keep the rules. -/
theorem lawful_of_validated {d : Document} (h : d.Validated) : d.Lawful := by
  cases h with
  | decoded h =>
    obtain ⟨v, -, hread⟩ := readFrom_of_decode h
    exact hread.lawful
  | built hb h =>
    obtain ⟨-, hwell, rfl⟩ := Builder.build_eq_ok_iff.1 h
    exact lawful_of_wellFormed hwell hb.version_eq hb.extras_eq hb.nodup_elements hb.nodup_lattices

end Document

end Beamline
