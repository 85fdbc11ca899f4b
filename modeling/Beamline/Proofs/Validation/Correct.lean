import Beamline.Proofs.Validation.Elements
import Beamline.Proofs.Validation.Lattices

/-!
# Validation accepts the well-formed documents

* `passes_shapeFindings`, `passes_unknownKeyFindings` : the keys at the top of a document;
* `isLenient_iff` : when unknown keys are allowed;
* `passes_entryFindings_iff` : the keys and the single entries are passed if they are well formed;
* `passes_objectFindings_iff` : the findings of an object are passed if it is well formed;
* `passes_findings_iff`, `accepted_iff_wellFormed` : a value is accepted if and only if it is well
  formed.
-/

namespace Beamline.Validation

variable {lenient : Bool} {doc : List (String × Json)}

/-! ## The shape -/

theorem isObject_iff {v : Json} : v.isObject ↔ ∃ members, v = .obj members := by
  cases v <;> simp [Json.isObject, Json.members?]

theorem isText_iff {v : Json} : v.isText ↔ ∃ s, v = .str s := by
  cases v <;> simp [Json.isText, Json.text?]

/-- A version is read from an entry if the entry spells one with the current major number. -/
theorem checkVersion_eq_ok_iff {entry : Json} {v : Version} : checkVersion entry = .ok v ↔
    ∃ text, entry = .str text ∧ v.Spelled text ∧ v.major = 3 := by
  unfold checkVersion
  cases entry with
  | str raw =>
    dsimp only [Json.text?]
    cases hparse : Version.parse? raw with
    | none =>
      refine ⟨fun h => (by cases h), ?_⟩
      rintro ⟨text, heq, hv, -⟩
      cases heq
      rw [← Version.parse?_eq_some_iff, hparse] at hv
      cases hv
    | some w =>
      dsimp only
      have hw := Version.parse?_eq_some_iff.1 hparse
      split
      · rename_i hread
        constructor
        · intro h
          cases h
          exact ⟨raw, rfl, hw, eq_of_beq hread⟩
        · rintro ⟨text, heq, hv, -⟩
          cases heq
          rw [← Version.parse?_eq_some_iff, hparse] at hv
          rw [Option.some.inj hv]
      · rename_i hread
        refine ⟨fun h => (by cases h), ?_⟩
        rintro ⟨text, heq, hv, hmajor⟩
        cases heq
        rw [← Version.parse?_eq_some_iff, hparse] at hv
        cases hv
        exact absurd (beq_iff_eq.2 hmajor) hread
  | _ =>
    refine ⟨fun h => (by cases h), ?_⟩
    rintro ⟨text, heq, -⟩
    cases heq

theorem passes_versionFindings : Passes lenient (versionFindings doc) ↔
    ∀ entry, doc.lookup "version" = some entry → ∃ v, checkVersion entry = .ok v := by
  unfold versionFindings
  cases hentry : doc.lookup "version" with
  | none => simp
  | some entry =>
    dsimp only
    cases hcheck : checkVersion entry with
    | ok v => simp [hcheck]
    | error c =>
      have hc : c.isUnknown = false := by
        unfold checkVersion at hcheck
        split at hcheck
        · cases hcheck
          rfl
        split at hcheck
        · cases hcheck
          rfl
        split at hcheck <;> cases hcheck
        rfl
      simp [hc, hcheck]

theorem passes_demand {key : String} {ok : Json → Bool} {c : Complaint} (hc : c.isUnknown = false) :
    Passes lenient (demand doc key ok c) ↔ ∀ v, doc.lookup key = some v → ok v := by
  unfold demand
  cases hv : doc.lookup key with
  | none => simp
  | some v =>
    dsimp only
    split
    · rename_i h
      simp [h]
    · rename_i h
      simp [hc, h]

/-- The top of a document is passed if the keys it must have are there, and those it has are of
their form. -/
theorem passes_shapeFindings : Passes lenient (shapeFindings doc) ↔
    (∃ v text, doc.lookup "version" = some (.str text) ∧ Version.Spelled text v ∧ v.major = 3) ∧
    (∃ elements, doc.lookup "elements" = some (.obj elements)) ∧
    (∃ lattices, doc.lookup "lattices" = some (.obj lattices)) ∧
    ∀ key ∈ ["title", "info", "root"], ∀ v, doc.lookup key = some v → ∃ s, v = .str s := by
  have hmissing : Passes lenient ((requiredKeys.filter fun key => !Table.has doc key).map
      fun key => ⟨[], .missingKey key⟩) ↔ ∀ key ∈ requiredKeys, ∃ v, doc.lookup key = some v := by
    rw [passes_map]
    constructor
    · intro h key hkey
      by_contra hno
      refine absurd (h key (List.mem_filter.2 ⟨hkey, ?_⟩)).2 Bool.false_ne_true
      rw [Bool.not_eq_true', ← Bool.not_eq_true, Table.has_iff]
      exact fun hmem => hno (Table.exists_lookup hmem)
    · intro h key hkey
      obtain ⟨hkey, hhas⟩ := List.mem_filter.1 hkey
      obtain ⟨v, hv⟩ := h key hkey
      rw [Table.has_iff.2 (Table.lookup_isSome.1 (by rw [hv]; rfl))] at hhas
      cases hhas
  have htables : Passes lenient (tableKeys.flatMap fun key =>
      demand doc key Json.isObject (.keyNotObject key)) ↔
      ∀ key ∈ tableKeys, ∀ v, doc.lookup key = some v → ∃ members, v = .obj members := by
    rw [passes_flatMap]
    refine forall₂_congr fun key _ => ?_
    rw [passes_demand rfl]
    exact forall₂_congr fun v _ => isObject_iff
  have htexts : Passes lenient (textKeys.flatMap fun key =>
      demand doc key Json.isText (.keyNotText key)) ↔
      ∀ key ∈ textKeys, ∀ v, doc.lookup key = some v → ∃ s, v = .str s := by
    rw [passes_flatMap]
    refine forall₂_congr fun key _ => ?_
    rw [passes_demand rfl]
    exact forall₂_congr fun v _ => isText_iff
  unfold shapeFindings
  rw [passes_append, passes_append, passes_append, hmissing, htables, htexts,
    passes_versionFindings]
  constructor
  · rintro ⟨⟨⟨hmissing, htables⟩, htexts⟩, hversion⟩
    obtain ⟨entry, hentry⟩ := hmissing "version" (by decide)
    obtain ⟨v, hv⟩ := hversion entry hentry
    obtain ⟨text, rfl, hspelled, hmajor⟩ := checkVersion_eq_ok_iff.1 hv
    obtain ⟨elements, helements⟩ := hmissing "elements" (by decide)
    obtain ⟨es, rfl⟩ := htables "elements" (by decide) _ helements
    obtain ⟨lattices, hlattices⟩ := hmissing "lattices" (by decide)
    obtain ⟨ls, rfl⟩ := htables "lattices" (by decide) _ hlattices
    exact ⟨⟨v, text, hentry, hspelled, hmajor⟩, ⟨es, helements⟩, ⟨ls, hlattices⟩, htexts⟩
  · rintro ⟨⟨v, text, hentry, hspelled, hmajor⟩, ⟨es, helements⟩, ⟨ls, hlattices⟩, htexts⟩
    refine ⟨⟨⟨?_, ?_⟩, htexts⟩, ?_⟩
    · simp [requiredKeys, hentry, helements, hlattices]
    · simp [tableKeys, helements, hlattices]
    · intro entry h
      rw [hentry] at h
      cases h
      exact ⟨v, checkVersion_eq_ok_iff.2 ⟨text, rfl, hspelled, hmajor⟩⟩

/-- Unknown keys are passed if there are none or the reader is lenient. -/
theorem passes_unknownKeyFindings : Passes lenient (unknownKeyFindings doc) ↔
    lenient = true ∨ ∀ m ∈ doc, m.1 ∈ documentKeys := by
  unfold unknownKeyFindings
  rw [passes_map]
  constructor
  · intro h
    by_cases hl : lenient = true
    · exact .inl hl
    · refine .inr fun m hm => ?_
      by_contra hno
      refine hl (h m.1 (List.mem_filter.2 ⟨Table.mem_keys_of_mem hm, ?_⟩)).1
      rw [Bool.not_eq_true', ← Bool.not_eq_true, List.contains_iff_mem]
      exact hno
  · intro h key hkey
    obtain ⟨hkey, hunknown⟩ := List.mem_filter.1 hkey
    refine ⟨h.resolve_right fun hall => ?_, rfl⟩
    obtain ⟨v, hv⟩ := Table.mem_keys.1 hkey
    have : knownKeys.contains key = true := List.contains_iff_mem.2 (hall _ hv)
    rw [this] at hunknown
    cases hunknown

theorem isLenient_iff (mode : Mode) {text : String} {v : Version}
    (hlookup : doc.lookup "version" = some (.str text)) (hspelled : v.Spelled text)
    (hmajor : v.major = 3) :
    isLenient mode (.obj doc) = true ↔ mode = .lenient ∨ 0 < v.minor := by
  have hcheck := checkVersion_eq_ok_iff.2 ⟨text, rfl, hspelled, hmajor⟩
  have hforward : v.forward = true ↔ 0 < v.minor := by
    simp only [Version.forward, Version.readable, Version.current, hmajor, beq_self_eq_true,
      Bool.true_and]
    exact decide_eq_true_iff
  rw [← hforward]
  simp only [isLenient, Json.members?, Option.bind_some, readableVersion?, hlookup, hcheck,
    Except.toOption, Option.any_some, Bool.or_eq_true, beq_iff_eq]

/-! ## The whole document -/

/-- The keys and the single entries of an object are passed if they are well formed. -/
theorem passes_entryFindings_iff {policy : Policy} :
    Passes (isLenient policy.mode (.obj doc)) (shapeFindings doc ++ unknownKeyFindings doc ++
      (((doc.lookup "elements").bind Json.members?).getD []).flatMap
        (fun (name, entry) => elementFindings name entry) ++
      (((doc.lookup "lattices").bind Json.members?).getD []).flatMap (fun (name, entry) =>
        latticeFindings policy.nesting
          (Table.has (((doc.lookup "lattices").bind Json.members?).getD [])) name entry)) ↔
      ∃ version elements lattices, WellFormedEntries policy doc version elements lattices := by
  simp only [passes_append, passes_shapeFindings, passes_unknownKeyFindings, passes_flatMap,
    passes_elementFindings, passes_latticeFindings]
  constructor
  · rintro ⟨⟨⟨⟨⟨v, text, hversion, hspelled, hmajor⟩, ⟨es, helements⟩, ⟨ls, hlattices⟩,
      htexts⟩, hunknown⟩, helement⟩, hlattice⟩
    have hlenient := isLenient_iff policy.mode hversion hspelled hmajor
    rw [helements] at helement
    rw [hlattices] at hlattice
    simp only [Option.bind_some, Json.members?, Option.getD_some, Table.has_iff, hlenient]
      at helement hlattice
    rw [hlenient, or_assoc] at hunknown
    exact ⟨v, es, ls, ⟨text, hversion, hspelled⟩, hmajor, helements, hlattices, htexts, hunknown,
      fun name entry h => helement _ h, fun name entry h => hlattice _ h⟩
  · rintro ⟨v, es, ls, h⟩
    obtain ⟨text, hversion, hspelled⟩ := h.spelled
    have hlenient := isLenient_iff policy.mode hversion hspelled h.major
    rw [h.elementTable, h.latticeTable]
    simp only [Option.bind_some, Json.members?, Option.getD_some, Table.has_iff, hlenient]
    refine ⟨⟨⟨⟨⟨v, text, hversion, hspelled, h.major⟩, ⟨es, rfl⟩, ⟨ls, rfl⟩, h.texts⟩, ?_⟩,
      fun m hm => h.element _ _ hm⟩, fun m hm => h.lattice _ _ hm⟩
    rw [or_assoc]
    exact h.known

/-- The findings of an object are passed if it is a well-formed document. -/
theorem passes_objectFindings_iff {policy : Policy} :
    Passes (isLenient policy.mode (.obj doc)) (objectFindings policy.nesting doc) ↔
      ∃ version elements lattices, WellFormedObject policy doc version elements lattices := by
  unfold objectFindings
  dsimp only
  rw [passes_append, passes_append, passes_append, passes_entryFindings_iff]
  simp only [passes_flatMap, passes_nameFindings, passes_rootFindings, passes_cycleFindings]
  constructor
  · rintro ⟨⟨⟨⟨v, es, ls, h⟩, hnames⟩, hroot⟩, hcycles⟩
    rw [h.elementTable, h.latticeTable] at hnames
    rw [h.latticeTable] at hroot hcycles
    simp only [Option.bind_some, Json.members?, Option.getD_some, Table.has_iff]
      at hnames hroot hcycles
    refine ⟨v, es, ls, h.spelled, h.major, h.elementTable, h.latticeTable, h.texts, h.known,
      h.element, h.lattice, fun name hname => ?_, fun name items hitems => ?_, hroot, hcycles⟩
    · obtain ⟨entry, hentry⟩ := Table.mem_keys.1 hname
      exact (hnames _ hentry).1
    · exact (hnames _ hitems).2 items rfl
  · rintro ⟨v, es, ls, h⟩
    refine ⟨⟨⟨⟨v, es, ls, h.entries⟩, ?_⟩, ?_⟩, ?_⟩
    all_goals
      rw [h.latticeTable]
      simp only [h.elementTable, Option.bind_some, Json.members?, Option.getD_some, Table.has_iff]
    · refine fun m hm => ⟨h.distinct _ (Table.mem_keys_of_mem hm), fun items hitems => ?_⟩
      obtain ⟨name, entry⟩ := m
      cases hitems
      exact h.defined name items hm
    · exact h.root
    · exact h.acyclic

/-- The findings of a value are passed if it is a well-formed document. -/
theorem passes_findings_iff {policy : Policy} {v : Json} :
    Passes (isLenient policy.mode v) (findings policy.nesting v) ↔ WellFormed policy v := by
  unfold findings
  cases v with
  | obj doc =>
    refine passes_objectFindings_iff.trans ⟨?_, ?_⟩
    · rintro ⟨version, es, ls, h⟩
      exact ⟨doc, version, es, ls, rfl, h⟩
    · rintro ⟨doc', version, es, ls, heq, h⟩
      cases heq
      exact ⟨version, es, ls, h⟩
  | _ =>
    constructor
    · exact fun h => absurd (passes_singleton.1 h).2 Bool.false_ne_true
    · rintro ⟨doc, version, es, ls, heq, -⟩
      cases heq

/-- A value is accepted if and only if it is a well-formed document. -/
theorem accepted_iff_wellFormed (policy : Policy) (v : Json) :
    (validate policy v).accepted = true ↔ WellFormed policy v := by
  rw [accepted_iff]
  exact passes_findings_iff

end Beamline.Validation
