import Beamline.Proofs.Document.RoundTrip
import Beamline.Proofs.Validation.Rules

/-!
# Why a text is rejected

* `Error.ofViolations_eq_validation` and its siblings : the error that violations amount to, by the
  rules they are about;
* `exists_structural_iff`, `danglingOf_errors` : what these rules say of a raw value;
* `Classification` : what an error says of the raw value it is about;
* `classification_of_decode` : the error of a text that is rejected says so of its value.
-/

namespace Beamline

open Validation

/-! ## The error of a list of violations -/

namespace Error

variable {vs : List Violation}

theorem violations_ofViolations (vs : List Violation) : (ofViolations vs).violations = vs := by
  unfold ofViolations
  repeat' split
  all_goals rfl

theorem ofViolations_eq_validation (h : ∃ x ∈ vs, x.rule.isStructural = true) :
    ofViolations vs = .validation vs := by
  rw [ofViolations, if_pos (List.any_eq_true.2 h)]

theorem ofViolations_eq_reference (h : ¬ ∃ x ∈ vs, x.rule.isStructural = true)
    (hd : danglingOf vs ≠ []) : ofViolations vs = .reference (danglingOf vs) vs := by
  rw [ofViolations, if_neg (mt List.any_eq_true.1 h), if_pos (by simpa using hd)]

/-- Violations about neither single entries nor names are about cycles. -/
theorem ofViolations_eq_cycle (h : ¬ ∃ x ∈ vs, x.rule.isStructural = true)
    (hd : danglingOf vs = []) (hne : vs ≠ []) : ofViolations vs = .cycle (cyclesOf vs) vs := by
  have hcycles : cyclesOf vs ≠ [] := by
    obtain ⟨x, hx⟩ := List.exists_mem_of_ne_nil vs hne
    have hstructural := fun hs => h ⟨x, hx, hs⟩
    have hdangling := List.filterMap_eq_nil_iff.1 hd x hx
    intro hnil
    have hcycle := List.filterMap_eq_nil_iff.1 hnil x hx
    cases hrule : x.rule with
    | shape | element | lattice => exact hstructural (by rw [hrule]; rfl)
    | reference name => rw [hrule] at hdangling; cases hdangling
    | cycle names => rw [hrule] at hcycle; cases hcycle
  rw [ofViolations, if_neg (mt List.any_eq_true.1 h), hd, if_neg (by simp),
    if_pos (by simpa using hcycles)]

end Error

/-! ## What violations say of a raw value -/

variable {policy : Policy} {v : Json}

/-- A rule about a single entry is broken if and only if the value is not well shaped. -/
theorem exists_structural_iff : (∃ x ∈ (validate policy v).errors, x.rule.isStructural = true) ↔
    ¬ WellShaped policy v := by
  rw [← passes_structural_iff, Passes, not_forall₂]
  constructor
  · rintro ⟨x, hx, hs⟩
    obtain ⟨hx, herror⟩ := List.mem_filter.1 hx
    obtain ⟨f, hf, rfl⟩ := List.mem_map.1 hx
    refine ⟨f, List.mem_filter.2 ⟨hf, hs⟩, fun h => ?_⟩
    rw [isError_report.2 h] at herror
    cases herror
  · rintro ⟨f, hf, h⟩
    obtain ⟨hf, hs⟩ := List.mem_filter.1 hf
    refine ⟨_, List.mem_filter.2 ⟨List.mem_map_of_mem hf, ?_⟩, hs⟩
    rwa [← isError_report, Bool.not_eq_false] at h

/-- Undefined names are errors to every reader, and so none is lost. -/
theorem danglingOf_errors : danglingOf (validate policy v).errors =
    (findings policy.nesting v).filterMap Finding.dangling? := by
  unfold danglingOf validate Report.ofViolations
  rw [List.filterMap_filter, List.filterMap_map]
  congr 1
  funext f
  obtain ⟨place, c⟩ := f
  cases herror : ((⟨place, c⟩ : Finding).report (isLenient policy.mode v)).isError with
  | true =>
    rw [Function.comp_apply, herror]
    cases c <;> rfl
  | false =>
    rw [Function.comp_apply, herror]
    have hunknown := (isError_report.1 herror).2
    cases c <;> first | rfl | cases hunknown

/-- The undefined names among the violations are the references that dangle, in the order of the
document. -/
theorem exists_danglingOf_errors (policy : Policy) (v : Json) : ∃ rs : List (Spot × Dangling),
    danglingOf (validate policy v).errors = rs.map Prod.snd ∧
      rs.Pairwise (fun a b => a.1.Before b.1) ∧ ∀ spot r, (spot, r) ∈ rs ↔ Dangles v spot r := by
  refine ⟨_, danglingOf_errors.trans (filterMap_dangling_findings policy.nesting v),
    (pairwise_references v).filter _, fun spot r => ?_⟩
  rw [List.mem_filter, mem_references_iff, isUndefined, Bool.not_eq_true', Bool.or_eq_false_iff,
    ← Bool.not_eq_true, ← Bool.not_eq_true, Table.has_iff, Table.has_iff]
  exact ⟨fun h => ⟨h.1, h.2.1, h.2.2⟩, fun h => ⟨h.refers, h.noElement, h.noLattice⟩⟩

/-! ## Classes of errors -/

/-- What the error `e` says of the raw value `v` that it is about. -/
structure Classification (policy : Policy) (v : Json) (e : Error) : Prop where
  /-- The error shows the violations that are errors, in the order found. -/
  violations : e.violations =
    ((findings policy.nesting v).map (Finding.report (isLenient policy.mode v))).filter
      Violation.isError
  /-- It is about single entries if and only if a rule about a single entry is broken. -/
  validation : (∃ vs, e = .validation vs) ↔ ∃ x ∈ e.violations, x.rule.isStructural = true
  shape : (∃ vs, e = .validation vs) ↔ ¬ WellShaped policy v
  /-- It is about names if and only if the single entries are well formed and a name dangles. -/
  reference : (∃ missing vs, e = .reference missing vs) ↔
    WellShaped policy v ∧ ∃ spot r, Dangles v spot r
  /-- Then it lists all names that dangle, each where it stands, in the order of the document. -/
  missing : ∀ missing vs, e = .reference missing vs → ∃ rs : List (Spot × Dangling),
    missing = rs.map Prod.snd ∧ rs.Pairwise (fun a b => a.1.Before b.1) ∧
      ∀ spot r, (spot, r) ∈ rs ↔ Dangles v spot r
  /-- Otherwise it is about cycles, and some lattice holds itself. -/
  cycle : (∃ cycles vs, e = .cycle cycles vs) ↔
    WellShaped policy v ∧ ¬ ∃ spot r, Dangles v spot r
  cyclic : (∃ cycles vs, e = .cycle cycles vs) →
    ∃ name, Relation.TransGen (Nests (entriesOf v "lattices")) name name

/-- A text that is JSON is rejected for what validation finds wrong with its value. -/
theorem eq_ofViolations_of_decode {text : String} {e : Error} (hparse : Json.parse text = .ok v)
    (hdecode : Document.decode policy text = .error e) :
    ¬ WellFormed policy v ∧ e = .ofViolations (validate policy v).errors := by
  have hwell : ¬ WellFormed policy v := by
    intro hwell
    obtain ⟨d, hd, -⟩ := Document.exists_ofJson hwell (Json.parse_readable hparse)
    rw [Document.decode_eq_ok_iff.2 ⟨v, hparse, hwell, hd⟩] at hdecode
    cases hdecode
  have hrejected : ¬ (validate policy v).accepted = true :=
    fun h => hwell (passes_findings_iff.1 (accepted_iff.1 h))
  simp only [Document.decode, hparse, Document.ofRaw, if_neg hrejected] at hdecode
  exact ⟨hwell, (Except.error.inj hdecode).symm⟩

/-- The error of a text that is JSON but rejected says what is wrong with its value. -/
theorem classification_of_decode {text : String} {e : Error} (hparse : Json.parse text = .ok v)
    (hdecode : Document.decode policy text = .error e) : Classification policy v e := by
  obtain ⟨hwell, rfl⟩ := eq_ofViolations_of_decode hparse hdecode
  obtain ⟨rs, hrs, horder, hmem⟩ := exists_danglingOf_errors policy v
  have hdangles : danglingOf (validate policy v).errors ≠ [] ↔ ∃ spot r, Dangles v spot r := by
    rw [hrs, ne_eq, List.map_eq_nil_iff, List.eq_nil_iff_forall_not_mem]
    push Not
    exact ⟨fun ⟨m, hm⟩ => ⟨m.1, m.2, (hmem _ _).1 hm⟩, fun ⟨spot, r, h⟩ => ⟨_, (hmem spot r).2 h⟩⟩
  by_cases hshape : WellShaped policy v
  · have hstructural : ¬ ∃ x ∈ (validate policy v).errors, x.rule.isStructural = true :=
      fun h => exists_structural_iff.1 h hshape
    by_cases hd : ∃ spot r, Dangles v spot r
    · -- some name dangles
      rw [Error.ofViolations_eq_reference hstructural (hdangles.2 hd)]
      refine ⟨rfl, ⟨by simp, fun h => absurd h hstructural⟩, ⟨by simp, fun h => absurd hshape h⟩,
        ⟨fun _ => ⟨hshape, hd⟩, fun _ => ⟨_, _, rfl⟩⟩, fun missing vs h => ?_,
        ⟨by simp, fun h => absurd hd h.2⟩, by simp⟩
      cases h
      exact ⟨rs, hrs, horder, hmem⟩
    · -- nothing is left but cycles
      have hnone : danglingOf (validate policy v).errors = [] := not_not.1 (mt hdangles.1 hd)
      have hcyclic : ∃ name, Relation.TransGen (Nests (entriesOf v "lattices")) name name := by
        by_contra hno
        exact hwell (wellFormed_iff.2 ⟨hshape, hd, not_exists.1 hno⟩)
      have herrors : (validate policy v).errors ≠ [] := by
        intro hnil
        apply hwell
        rw [← passes_findings_iff, ← accepted_iff, Report.accepted, hnil]
        rfl
      rw [Error.ofViolations_eq_cycle hstructural hnone herrors]
      exact ⟨rfl, ⟨by simp, fun h => absurd h hstructural⟩, ⟨by simp, fun h => absurd hshape h⟩,
        ⟨by simp, fun h => absurd h.2 hd⟩, by simp,
        ⟨fun _ => ⟨hshape, hd⟩, fun _ => ⟨_, _, rfl⟩⟩, fun _ => hcyclic⟩
  · -- a rule about a single entry is broken
    have hstructural := exists_structural_iff.2 hshape
    rw [Error.ofViolations_eq_validation hstructural]
    exact ⟨rfl, ⟨fun _ => hstructural, fun _ => ⟨_, rfl⟩⟩, ⟨fun _ => hshape, fun _ => ⟨_, rfl⟩⟩,
      ⟨by simp, fun h => absurd h.1 hshape⟩, by simp, ⟨by simp, fun h => absurd h.1 hshape⟩,
      by simp⟩

/-- A text with a name that nothing defines in a group, a root that nothing defines, a lattice that
holds itself and a key that is not known. -/
def danglingText : String :=
  "\x7b\"version\": \"3.1\", \"note\": 0, \"root\": \"R\", \"elements\": \x7b\x7d, " ++
    "\"lattices\": \x7b\"A\": [\"A\", [[\"x\"], \"A\"]]\x7d\x7d"

theorem decode_danglingText : (Json.parse danglingText).toOption.isSome = true ∧
    (Document.decode .standard danglingText).toOption.isSome = false := by
  decide +kernel

/-- `classification_of_decode` for a text in which two names dangle. -/
theorem classification_danglingText : ∃ v e, Json.parse danglingText = .ok v ∧
    Document.decode .standard danglingText = .error e ∧ Classification .standard v e := by
  obtain ⟨hparsed, hfailed⟩ := decode_danglingText
  cases hparse : Json.parse danglingText with
  | error fault =>
    rw [hparse] at hparsed
    cases hparsed
  | ok v =>
    cases hdecode : Document.decode .standard danglingText with
    | ok d =>
      rw [hdecode] at hfailed
      cases hfailed
    | error e => exact ⟨v, e, rfl, rfl, classification_of_decode hparse hdecode⟩

end Beamline
