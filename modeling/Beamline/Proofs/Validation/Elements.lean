import Beamline.Proofs.Table
import Beamline.Proofs.Validation.Finding
import Beamline.Proofs.Validation.WellFormed

/-!
# Which entries of elements are passed

* `Form.fits_iff`, `Kind.parameter?_eq_some_iff` : forms and the parameters of a kind;
* `passes_elementFindings` : the entry of an element is passed if it is well formed.
-/

namespace Beamline

theorem Form.fits_iff {form : Form} {v : Json} : form.fits v ↔ form.Fits v := by
  cases form with
  | number => cases v <;> simp [fits, Fits, Json.isNumber, Json.float?]
  | text => cases v <;> simp [fits, Fits, Json.isText, Json.text?]
  | numbers =>
    cases v with
    | arr items =>
      simp only [fits, Fits, Json.items?, Option.any_some, List.all_eq_true, Json.arr.injEq,
        exists_eq_left']
      refine forall₂_congr fun item _ => ?_
      cases item <;> simp [Json.isNumber, Json.float?]
    | _ => simp [fits, Fits, Json.items?]

theorem Parameter.name_injective : Function.Injective Parameter.name := by
  intro p q
  cases p <;> cases q <;> decide

theorem Parameter.nonNegative_iff {p : Parameter} : p.nonNegative ↔ p = length := by
  cases p <;> decide

/-- The parameter that a kind writes with a name is the only one of its slots with that name. -/
theorem Kind.parameter?_eq_some_iff {k : Kind} {key : String} {p : Parameter} :
    k.parameter? key = some p ↔ ∃ s ∈ k.slots, s.parameter = p ∧ p.name = key := by
  unfold parameter?
  constructor
  · intro h
    obtain ⟨s, hs, hp⟩ := List.mem_map.1 (List.mem_of_find?_eq_some h)
    exact ⟨s, hs, hp, by simpa using List.find?_some h⟩
  · rintro ⟨s, hs, rfl, hkey⟩
    cases hfind : (k.slots.map (·.parameter)).find? (·.name == key) with
    | none =>
      rw [List.find?_eq_none] at hfind
      exact absurd hkey (by simpa using hfind _ (List.mem_map_of_mem hs))
    | some q =>
      have hq : q.name = key := by simpa using List.find?_some hfind
      rw [Parameter.name_injective (hq.trans hkey.symm)]

theorem Kind.parameter?_eq_none_iff {k : Kind} {key : String} :
    k.parameter? key = none ↔ ∀ s ∈ k.slots, s.parameter.name ≠ key := by
  simp [parameter?]

theorem Kind.ofTag?_tag (k : Kind) : ofTag? k.tag = some k := by
  cases k <;> decide

theorem Kind.tag_of_ofTag? {tag : String} {k : Kind} (h : ofTag? tag = some k) : k.tag = tag := by
  simpa using List.find?_some h

namespace Validation

/-- A parameter is passed if its kind has it and it fits, or does not have it and may be lenient. -/
theorem parameterComplaint?_passes {lenient : Bool} {k : Kind} {key : String} {v : Json} :
    (∀ c, parameterComplaint? k key v = some c → lenient = true ∧ c.isUnknown = true) ↔
      (∀ s ∈ k.slots, s.parameter.name = key → s.parameter.form.Fits v ∧
        (s.parameter = .length → ∀ n, v = .num n → ¬ n.toFloat < 0)) ∧
      (lenient = true ∨ ∃ s ∈ k.slots, s.parameter.name = key) := by
  unfold parameterComplaint?
  cases hp : k.parameter? key with
  | none =>
    rw [Kind.parameter?_eq_none_iff] at hp
    constructor
    · intro h
      exact ⟨fun s hs hkey => absurd hkey (hp s hs), .inl (h _ rfl).1⟩
    · rintro ⟨-, h⟩ c hc
      cases hc
      exact ⟨h.resolve_right fun ⟨s, hs, hkey⟩ => hp s hs hkey, rfl⟩
  | some p =>
    obtain ⟨s, hs, rfl, hkey⟩ := Kind.parameter?_eq_some_iff.1 hp
    have honly : ∀ t ∈ k.slots, t.parameter.name = key → t.parameter = s.parameter :=
      fun t _ ht => Parameter.name_injective (ht.trans hkey.symm)
    dsimp only
    split
    · rename_i hfits
      constructor
      · exact fun h => absurd (h _ rfl).2 Bool.false_ne_true
      · intro h
        have := Form.fits_iff.2 (h.1 s hs hkey).1
        simp [this] at hfits
    rename_i hfits
    have hfits : s.parameter.form.Fits v := by simpa [← Form.fits_iff] using hfits
    split
    · rename_i hneg
      rw [Bool.and_eq_true, Parameter.nonNegative_iff] at hneg
      constructor
      · exact fun h => absurd (h _ rfl).2 Bool.false_ne_true
      · intro h
        obtain ⟨hlength, hneg⟩ := hneg
        have := (h.1 s hs hkey).2 hlength
        cases v with
        | num n => exact absurd (of_decide_eq_true hneg) (this n rfl)
        | _ => cases hneg
    · rename_i hneg
      refine ⟨fun _ => ⟨fun t ht htkey => ?_, .inr ⟨s, hs, hkey⟩⟩, fun _ c hc => by cases hc⟩
      rw [honly t ht htkey]
      refine ⟨hfits, fun hlength n hn hlt => hneg ?_⟩
      rw [hn, Bool.and_eq_true, Parameter.nonNegative_iff]
      exact ⟨hlength, decide_eq_true hlt⟩

theorem passes_parameterFindings {lenient : Bool} {place : Pointer} {k : Kind}
    {params : List (String × Json)} : Passes lenient (parameterFindings place k params) ↔
      WellFormedParameters (lenient = true) k params := by
  unfold parameterFindings
  rw [passes_append, passes_map, passes_filterMap]
  have hrequired : (∀ p ∈ k.required.filter fun p => !Table.has params p.name,
      lenient = true ∧ (Complaint.missingParameter p k).isUnknown = true) ↔
      ∀ s ∈ k.slots, s.required → ∃ v, (s.parameter.name, v) ∈ params := by
    constructor
    · intro h s hs hreq
      have hmem : s.parameter ∈ k.required :=
        List.mem_map.2 ⟨s, List.mem_filter.2 ⟨hs, hreq⟩, rfl⟩
      by_contra hno
      refine absurd (h s.parameter (List.mem_filter.2 ⟨hmem, ?_⟩)).2 Bool.false_ne_true
      rw [Bool.not_eq_true', ← Bool.not_eq_true, Table.has_iff, Table.mem_keys]
      exact hno
    · intro h p hp
      obtain ⟨hp, hhas⟩ := List.mem_filter.1 hp
      obtain ⟨s, hs, rfl⟩ := List.mem_map.1 hp
      obtain ⟨hs, hreq⟩ := List.mem_filter.1 hs
      rw [Table.has_iff.2 (Table.mem_keys.2 (h s hs hreq))] at hhas
      cases hhas
  have hparams : (∀ m ∈ params, ∀ g,
      ((parameterComplaint? k m.1 m.2).map fun c => (⟨place ++ [m.1], c⟩ : Finding)) = some g →
        lenient = true ∧ g.complaint.isUnknown = true) ↔
      ∀ m ∈ params, (∀ s ∈ k.slots, s.parameter.name = m.1 → s.parameter.form.Fits m.2 ∧
        (s.parameter = .length → ∀ n, m.2 = .num n → ¬ n.toFloat < 0)) ∧
        (lenient = true ∨ ∃ s ∈ k.slots, s.parameter.name = m.1) := by
    refine forall₂_congr fun m _ => ?_
    rw [← parameterComplaint?_passes]
    simp
  refine Iff.trans (and_congr hrequired hparams)
    ⟨fun h => ?_, fun h => ⟨h.required, fun m hm => ?_⟩⟩
  · refine ⟨h.1, fun s hs v hv => ((h.2 _ hv).1 s hs rfl).1,
      fun s hs hlength n hn => ((h.2 _ hn).1 s hs rfl).2 hlength n rfl, ?_⟩
    by_cases hl : lenient = true
    · exact .inl hl
    · exact .inr fun m hm => (h.2 m hm).2.resolve_left hl
  · obtain ⟨key, v⟩ := m
    refine ⟨fun s hs hkey => ?_, h.known.imp id fun h => h _ hm⟩
    cases hkey
    exact ⟨h.fits s hs v hm, fun hlength n hn => h.length s hs hlength n (hn ▸ hm)⟩

theorem passes_pairFindings {lenient : Bool} {place : Pointer} {tag params : Json} :
    Passes lenient (pairFindings place tag params) ↔
      ∃ (k : Kind) (ms : List (String × Json)), tag = .str k.tag ∧ params = .obj ms ∧
        WellFormedParameters (lenient = true) k ms := by
  unfold pairFindings
  dsimp only
  rw [passes_append]
  constructor
  · rintro ⟨htag, hparams⟩
    cases hkind : kindOf tag with
    | error c =>
      rw [hkind] at htag
      unfold kindOf at hkind
      split at hkind
      · cases hkind
        exact absurd (passes_singleton.1 htag).2 Bool.false_ne_true
      · split at hkind
        · cases hkind
          exact absurd (passes_singleton.1 htag).2 Bool.false_ne_true
        · cases hkind
    | ok k =>
      rw [hkind] at hparams
      have htag : tag = .str k.tag := by
        unfold kindOf at hkind
        split at hkind
        · cases hkind
        · rename_i s hs
          split at hkind
          · cases hkind
          · rename_i k' hk
            cases hkind
            cases tag with
            | str s' =>
              cases hs
              rw [Kind.tag_of_ofTag? hk]
            | _ => cases hs
      cases params with
      | obj ms => exact ⟨k, ms, htag, rfl, passes_parameterFindings.1 hparams⟩
      | _ => exact absurd (passes_singleton.1 hparams).2 Bool.false_ne_true
  · rintro ⟨k, ms, rfl, rfl, h⟩
    have hkind : kindOf (.str k.tag) = .ok k := by
      simp only [kindOf, Json.text?, Kind.ofTag?_tag]
    rw [hkind]
    exact ⟨passes_nil, passes_parameterFindings.2 h⟩

/-- The entry of an element is passed if it is well formed. -/
theorem passes_elementFindings {lenient : Bool} {name : String} {entry : Json} :
    Passes lenient (elementFindings name entry) ↔
      WellFormedElement (lenient = true) name entry := by
  unfold elementFindings
  dsimp only
  rw [passes_append]
  have hname : Passes lenient (if name.isEmpty then
      [⟨["elements", name], .namelessElement⟩] else []) ↔ name ≠ "" := by
    split
    · rename_i hempty
      simpa [Complaint.isUnknown] using hempty
    · rename_i hempty
      simpa using hempty
  suffices hentry : _ ↔ ∃ (k : Kind) (params : List (String × Json)),
      entry = .arr [.str k.tag, .obj params] ∧ WellFormedParameters (lenient = true) k params from
    (and_congr hname hentry).trans ⟨fun h => ⟨h.1, h.2⟩, fun h => ⟨h.named, h.pair⟩⟩
  split
  · rename_i tag params hitems
    obtain rfl : entry = .arr [tag, params] := by
      cases entry with
      | arr items => rw [Option.some.inj hitems]
      | _ => cases hitems
    rw [passes_pairFindings]
    constructor
    · rintro ⟨k, ms, rfl, rfl, h⟩
      exact ⟨k, ms, rfl, h⟩
    · rintro ⟨k, ms, heq, h⟩
      cases heq
      exact ⟨k, ms, rfl, rfl, h⟩
  · rename_i hitems
    constructor
    · exact fun h => absurd (passes_singleton.1 h).2 Bool.false_ne_true
    · rintro ⟨k, ms, rfl, -⟩
      exact absurd rfl (hitems _ _)

end Validation

end Beamline
