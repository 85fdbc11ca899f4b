import Beamline.Proofs.Document.RoundTrip
import Beamline.Proofs.Validation.Rules

/-!
# One document under several policies

* `Violation.isUnknownKey` : whether a violation is about a key that is merely unknown;
* `errors_lenient` : a lenient reader finds the errors of a strict one but for those;
* `NestsByName`, `NestsInPlace` : what the policies on nesting forbid;
* `validate_eq_both` : a document that does without what its policy forbids is judged as if both
  forms of nesting were allowed;
* `ReadAlike` : two policies accept a document, report the same of it and decode it to the same;
* `relaxed_policies` : what is left of the errors of a document when its policy is relaxed.
-/

namespace Beamline

/-- Whether a violation is about a key that is merely unknown, as its wording says. -/
def Violation.isUnknownKey (x : Violation) : Bool :=
  "unknown top-level key '".toList.isPrefixOf x.reason.toList ||
    "unknown parameter '".toList.isPrefixOf x.reason.toList

namespace Validation

variable {v : Json} {nesting : Nesting} {mode : Mode} {p q : Policy}

/-! ## Unknown keys -/

/-- No other complaint is worded like one about an unknown key. -/
theorem isUnknownKey_report {f : Finding} {lenient : Bool} :
    (f.report lenient).isUnknownKey = f.complaint.isUnknown := by
  rcases f with ⟨place, c⟩
  unfold Violation.isUnknownKey Finding.report Complaint.message
  cases c <;> simp only [String.toList_append, List.append_assoc] <;> rfl

/-- The errors are the findings, but for those about unknown keys if the reader is lenient. -/
theorem errors_validate (p : Policy) (v : Json) : (validate p v).errors =
    ((findings p.nesting v).filter fun f => !(isLenient p.mode v && f.complaint.isUnknown)).map
      (Finding.report false) := by
  rw [validate, Report.ofViolations, List.filter_map]
  have hkept : Violation.isError ∘ Finding.report (isLenient p.mode v) =
      fun f => !(isLenient p.mode v && f.complaint.isUnknown) := funext fun f => isError_report_eq
  rw [hkept]
  refine List.map_congr_left fun f hf => ?_
  have hf := (List.mem_filter.1 hf).2
  rw [Bool.not_eq_true'] at hf
  rw [Finding.report, Finding.report, Finding.severity, hf]
  rfl

theorem isLenient_lenient (v : Json) : isLenient .lenient v = true :=
  rfl

/-- A lenient reader finds the errors of a strict one, but for those about unknown keys. -/
theorem errors_lenient (nesting : Nesting) (v : Json) : (validate ⟨.lenient, nesting⟩ v).errors =
    (validate ⟨.strict, nesting⟩ v).errors.filter (!·.isUnknownKey) := by
  rw [errors_validate, errors_validate, List.filter_map, List.filter_filter]
  refine congrArg _ (List.filter_congr fun f _ => ?_)
  rw [Function.comp_apply, isUnknownKey_report, isLenient_lenient]
  cases f.complaint.isUnknown <;> simp

/-- To documents of a later minor version all readers are lenient. -/
theorem validate_of_later {text : String} {version : Version}
    (hversion : v.get? "version" = some (.str text)) (hspelled : version.Spelled text)
    (hmajor : version.major = 3) (hminor : 0 < version.minor) :
    validate ⟨.lenient, nesting⟩ v = validate ⟨.strict, nesting⟩ v := by
  cases v with
  | obj doc =>
    have hstrict := (isLenient_iff .strict hversion hspelled hmajor).2 (.inr hminor)
    rw [validate, validate, isLenient_lenient, hstrict]
  | _ => cases hversion

/-- To an accepted document there is no difference between a strict and a lenient reader. -/
theorem validate_lenient_of_accepted (h : (validate ⟨.strict, nesting⟩ v).accepted = true) :
    validate ⟨.lenient, nesting⟩ v = validate ⟨.strict, nesting⟩ v := by
  have hpasses := accepted_iff.1 h
  cases hlenient : isLenient .strict v with
  | true => rw [validate, validate, isLenient_lenient, hlenient]
  | false =>
    have hnil : findings nesting v = [] := by
      rw [List.eq_nil_iff_forall_not_mem]
      intro f hf
      exact absurd (hlenient.symm.trans (hpasses f hf).1) (by decide)
    rw [validate, validate, hnil]
    rfl

/-! ## Nesting -/

/-- An item of a lattice, at any depth, is the name of a lattice. -/
def NestsByName (v : Json) : Prop :=
  ∃ name items s, (name, .arr items) ∈ entriesOf v "lattices" ∧ Occurs (.str s) items ∧
    s ∈ Table.keys (entriesOf v "lattices")

/-- An item of a lattice, at any depth, is an array. -/
def NestsInPlace (v : Json) : Prop :=
  ∃ name items inner, (name, .arr items) ∈ entriesOf v "lattices" ∧ Occurs (.arr inner) items

/-- The lattices of a document are nested only as the policy allows. -/
structure Confined (nesting : Nesting) (v : Json) : Prop where
  named : nesting = .inline → ¬ NestsByName v
  inline : nesting = .named → ¬ NestsInPlace v

theorem itemComplaint?_eq_both {isLattice : String → Bool} {item : Json}
    (hnamed : nesting = .inline → ∀ s, item = .str s → ¬ isLattice s)
    (hinline : nesting = .named → ∀ inner, item ≠ .arr inner) :
    itemComplaint? nesting isLattice item = itemComplaint? .both isLattice item := by
  cases item with
  | str s =>
    by_cases hn : nesting = .inline
    · rw [itemComplaint?, itemComplaint?, Bool.eq_false_iff.2 (hnamed hn s rfl)]
      simp
    · rw [← allowsNamed_iff, Bool.not_eq_false] at hn
      rw [itemComplaint?, itemComplaint?, hn]
      rfl
  | arr inner =>
    have hn : nesting ≠ .named := fun hn => hinline hn inner rfl
    rw [ne_eq, ← allowsInline_iff, Bool.not_eq_false] at hn
    rw [itemComplaint?, itemComplaint?, hn]
    rfl
  | _ => rfl

theorem latticeFindings_eq_both {name : String} {entry : Json} (h : Confined nesting v)
    (hentry : (name, entry) ∈ entriesOf v "lattices") :
    latticeFindings nesting (Table.has (entriesOf v "lattices")) name entry =
      latticeFindings .both (Table.has (entriesOf v "lattices")) name entry := by
  unfold latticeFindings
  cases hitems : entry.items? with
  | none => rfl
  | some items =>
    cases arr_of_items? hitems
    refine congrArg _ (List.filterMap_congr fun spot hspot => ?_)
    have hoccurs : Occurs spot.2 items := (exists_mem_walk_iff _).1 ⟨_, hspot⟩
    have hitem : itemComplaint? nesting (Table.has (entriesOf v "lattices")) spot.2 =
        itemComplaint? .both (Table.has (entriesOf v "lattices")) spot.2 :=
      itemComplaint?_eq_both
        (fun hn s hs hlattice =>
          h.named hn ⟨name, items, s, hentry, hs ▸ hoccurs, Table.has_iff.1 hlattice⟩)
        (fun hn inner hi => h.inline hn ⟨name, items, inner, hentry, hi ▸ hoccurs⟩)
    dsimp only
    rw [hitem]

/-- A document that does without what a policy forbids is judged as if nothing were forbidden. -/
theorem validate_eq_both (h : Confined nesting v) :
    validate ⟨mode, nesting⟩ v = validate ⟨mode, .both⟩ v := by
  have hfindings : findings nesting v = findings .both v := by
    cases v with
    | obj doc =>
      have hentries : ((doc.lookup "lattices").bind Json.members?).getD [] =
          entriesOf (.obj doc) "lattices" := rfl
      unfold findings objectFindings
      dsimp only [Json.members?]
      rw [hentries]
      congr 4
      exact List.flatMap_congr fun m hm => latticeFindings_eq_both h hm
    | _ => rfl
  rw [validate, validate, hfindings]

theorem confined_of_wellFormed (h : WellFormed ⟨mode, nesting⟩ v) : Confined nesting v := by
  obtain ⟨doc, version, elements, lattices, rfl, hdoc⟩ := h
  have hlattices := entriesOf_eq hdoc.latticeTable
  refine ⟨fun hn => ?_, fun hn => ?_⟩
  · rintro ⟨name, items, s, hentry, hs, hlattice⟩
    rw [hlattices] at hentry hlattice
    obtain ⟨items', heq, hitems⟩ := (hdoc.lattice _ _ hentry).items
    cases heq
    exact hitems.named hn s hs hlattice
  · rintro ⟨name, items, inner, hentry, hinner⟩
    rw [hlattices] at hentry
    obtain ⟨items', heq, hitems⟩ := (hdoc.lattice _ _ hentry).items
    cases heq
    exact hitems.inline hn inner hinner

/-- What a policy on nesting accepts is what is accepted anyway and does without what it forbids. -/
theorem accepted_iff_confined : (validate ⟨mode, nesting⟩ v).accepted = true ↔
    (validate ⟨mode, .both⟩ v).accepted = true ∧ Confined nesting v := by
  constructor
  · intro h
    have hconfined := confined_of_wellFormed ((accepted_iff_wellFormed _ v).1 h)
    exact ⟨validate_eq_both hconfined ▸ h, hconfined⟩
  · rintro ⟨h, hconfined⟩
    rwa [validate_eq_both hconfined]

/-! ## Reading under two policies -/

/-- Under both policies a value has the same warnings and is the same document, which any text of it
decodes to. -/
structure ReadAlike (p q : Policy) (v : Json) : Prop where
  warnings : (validate p v).warnings = (validate q v).warnings
  value : Document.ofRaw p v = Document.ofRaw q v
  decoded : ∀ text, Json.parse text = .ok v →
    ∃ d, Document.decode p text = .ok d ∧ Document.decode q text = .ok d

theorem readAlike_of_accepted (haccepted : (validate p v).accepted = true)
    (h : validate p v = validate q v) : ReadAlike p q v := by
  refine ⟨by rw [h], by rw [Document.ofRaw, Document.ofRaw, h], fun text htext => ?_⟩
  have hp : WellFormed p v := (accepted_iff_wellFormed p v).1 haccepted
  have hq : WellFormed q v := (accepted_iff_wellFormed q v).1 (h ▸ haccepted)
  obtain ⟨d, hd, -⟩ := Document.exists_ofJson hp (Json.parse_readable htext)
  exact ⟨d, Document.decode_eq_ok_iff.2 ⟨v, htext, hp, hd⟩,
    Document.decode_eq_ok_iff.2 ⟨v, htext, hq, hd⟩⟩

end Validation

open Validation

/-- A lenient reader drops just the errors about unknown keys, and none in a document of a later
minor version. What a stricter policy accepts, a relaxed one reads alike: what a policy on nesting
accepts is what is accepted without it and has no nesting that it forbids. -/
theorem relaxed_policies (nesting : Nesting) (mode : Mode) (v : Json) :
    (validate ⟨.lenient, nesting⟩ v).errors =
      (validate ⟨.strict, nesting⟩ v).errors.filter (!·.isUnknownKey) ∧
    (∀ text (version : Version), v.get? "version" = some (.str text) → version.Spelled text →
      version.major = 3 → 0 < version.minor →
      (validate ⟨.lenient, nesting⟩ v).errors = (validate ⟨.strict, nesting⟩ v).errors) ∧
    ((validate ⟨.strict, nesting⟩ v).accepted = true →
      (validate ⟨.lenient, nesting⟩ v).accepted = true ∧
        ReadAlike ⟨.strict, nesting⟩ ⟨.lenient, nesting⟩ v) ∧
    ((validate ⟨mode, .inline⟩ v).accepted = true ↔
      (validate ⟨mode, .both⟩ v).accepted = true ∧ ¬ NestsByName v) ∧
    ((validate ⟨mode, .named⟩ v).accepted = true ↔
      (validate ⟨mode, .both⟩ v).accepted = true ∧ ¬ NestsInPlace v) ∧
    ((validate ⟨mode, nesting⟩ v).accepted = true →
      ReadAlike ⟨mode, nesting⟩ ⟨mode, .both⟩ v) := by
  refine ⟨errors_lenient nesting v, ?_, ?_, ?_, ?_, ?_⟩
  · intro text version hversion hspelled hmajor hminor
    rw [validate_of_later hversion hspelled hmajor hminor]
  · intro h
    have hsame := validate_lenient_of_accepted h
    exact ⟨hsame ▸ h, readAlike_of_accepted h hsame.symm⟩
  · rw [accepted_iff_confined]
    exact and_congr_right fun _ => ⟨fun h => h.named rfl, fun h => ⟨fun _ => h, nofun⟩⟩
  · rw [accepted_iff_confined]
    exact and_congr_right fun _ => ⟨fun h => h.inline rfl, fun h => ⟨nofun, fun _ => h⟩⟩
  · intro h
    exact readAlike_of_accepted h (validate_eq_both (accepted_iff_confined.1 h).2)

/-- A document with a key that is not known, in which one lattice names another. -/
def colouredText : String :=
  "\x7b\"version\": \"3.0\", \"colour\": 1, \"elements\": \x7b\"D\": [\"drift\", " ++
    "\x7b\"length\": 1\x7d]\x7d, \"lattices\": \x7b\"L\": [\"D\"], \"M\": [\"L\", \"D\"]\x7d\x7d"

/-- A strict reader rejects such a document for its key, a lenient one reads it, but not if lattices
must not be named. -/
theorem relaxed_policies_colouredText : ∃ v d, Json.parse colouredText = .ok v ∧
    (validate ⟨.strict, .named⟩ v).errors.filter (!·.isUnknownKey) = [] ∧
    (validate ⟨.strict, .named⟩ v).errors.map (·.path) = ["/colour"] ∧
    Document.decode ⟨.lenient, .named⟩ colouredText = .ok d ∧
    Document.decode ⟨.lenient, .both⟩ colouredText = .ok d ∧ NestsByName v ∧ ¬ NestsInPlace v := by
  have haccepted : (Json.parse colouredText).toOption.any
      (fun v => (validate ⟨.lenient, .named⟩ v).accepted &&
        !(validate ⟨.lenient, .inline⟩ v).accepted &&
        (validate ⟨.strict, .named⟩ v).errors.map (·.path) == ["/colour"]) = true := by
    decide +kernel
  cases hparse : Json.parse colouredText with
  | error fault =>
    rw [hparse] at haccepted
    cases haccepted
  | ok v =>
    rw [hparse, Except.toOption, Option.any_some, Bool.and_eq_true, Bool.and_eq_true, beq_iff_eq,
      Bool.not_eq_true'] at haccepted
    obtain ⟨⟨hnamed, hinline⟩, hpath⟩ := haccepted
    obtain ⟨hdrop, -, -, hbyName, hinPlace, halike⟩ := relaxed_policies .named .lenient v
    obtain ⟨d, hd, hboth⟩ := (halike hnamed).decoded colouredText hparse
    obtain ⟨haccepted, hnowhere⟩ := hinPlace.1 hnamed
    refine ⟨v, d, rfl, ?_, hpath, hd, hboth, ?_, hnowhere⟩
    · rw [← hdrop]
      exact List.isEmpty_iff.1 hnamed
    · by_contra hnot
      rw [hbyName.2 ⟨haccepted, hnot⟩] at hinline
      cases hinline

end Beamline
