import Beamline.Proofs.Validation.Correct
import Beamline.Proofs.Validation.References

/-!
# The rules that findings are about

The phases about shape, elements and lattices find nothing but broken rules about single entries;
the phases about names and cycles come after them.

* `Structural` : all findings of a list are about single entries;
* `passes_structural_iff` : no such finding is an error if and only if the value is well shaped;
* `filterMap_dangling_findings` : the names that findings say are not defined are the references
  that dangle, in the order of the document;
* `wellFormed_iff` : a value is well formed if it is well shaped, nothing dangles and no lattice
  holds itself.
-/

namespace Beamline

/-- The finding is about a single entry. -/
def Finding.isStructural (f : Finding) : Bool :=
  f.complaint.rule.isStructural

/-- The name that a finding says is not defined. -/
def Finding.dangling? (f : Finding) : Option Dangling :=
  match f.complaint with
  | .undefinedName name _ | .undefinedRoot name => some ⟨name, f.place.text⟩
  | _ => none

namespace Validation

/-! ## Findings about single entries -/

/-- All findings are about single entries. -/
def Structural (fs : List Finding) : Prop :=
  ∀ f ∈ fs, f.isStructural = true

variable {fs gs : List Finding} {α : Type}

@[simp] theorem structural_nil : Structural [] :=
  fun _ h => absurd h List.not_mem_nil

@[simp] theorem structural_singleton {f : Finding} : Structural [f] ↔ f.isStructural = true := by
  simp [Structural]

@[simp] theorem structural_append : Structural (fs ++ gs) ↔ Structural fs ∧ Structural gs := by
  simp only [Structural, List.mem_append, or_imp]
  exact forall_and

theorem structural_flatMap {xs : List α} {f : α → List Finding} (h : ∀ x, Structural (f x)) :
    Structural (xs.flatMap f) := by
  intro g hg
  obtain ⟨x, -, hg⟩ := List.mem_flatMap.1 hg
  exact h x g hg

theorem structural_map {xs : List α} {f : α → Finding} (h : ∀ x, (f x).isStructural = true) :
    Structural (xs.map f) := by
  intro g hg
  obtain ⟨x, -, rfl⟩ := List.mem_map.1 hg
  exact h x

theorem structural_filterMap {xs : List α} {f : α → Option Finding}
    (h : ∀ x g, f x = some g → g.isStructural = true) : Structural (xs.filterMap f) := by
  intro g hg
  obtain ⟨x, -, hg⟩ := List.mem_filterMap.1 hg
  exact h x g hg

/-- Complaints about single entries, put to places, are findings about single entries. -/
theorem structural_of_complaint {c? : Option Complaint} {place : Pointer} {g : Finding}
    (h : ∀ c, c? = some c → c.rule.isStructural = true)
    (hg : (c?.map fun c => (⟨place, c⟩ : Finding)) = some g) : g.isStructural = true := by
  obtain ⟨c, hc, rfl⟩ := Option.map_eq_some_iff.1 hg
  exact h c hc

variable {doc : List (String × Json)}

theorem structural_demand {key : String} {ok : Json → Bool} {c : Complaint}
    (hc : c.rule.isStructural = true) : Structural (demand doc key ok c) := by
  unfold demand
  split
  · exact structural_nil
  split
  · exact structural_nil
  · exact structural_singleton.2 hc

theorem structural_of_checkVersion {entry : Json} {c : Complaint}
    (h : checkVersion entry = .error c) : c.rule.isStructural = true := by
  unfold checkVersion at h
  split at h
  · cases h
    rfl
  split at h
  · cases h
    rfl
  split at h
  · cases h
  · cases h
    rfl

theorem structural_shapeFindings : Structural (shapeFindings doc) := by
  unfold shapeFindings
  simp only [structural_append]
  refine ⟨⟨⟨structural_map fun _ => rfl, structural_flatMap fun _ => structural_demand rfl⟩,
    structural_flatMap fun _ => structural_demand rfl⟩, ?_⟩
  unfold versionFindings
  split
  · exact structural_nil
  split
  · exact structural_nil
  · rename_i h
    exact structural_singleton.2 (structural_of_checkVersion h)

theorem structural_unknownKeyFindings : Structural (unknownKeyFindings doc) :=
  structural_map fun _ => rfl

theorem structural_of_kindOf {tag : Json} {c : Complaint} (h : kindOf tag = .error c) :
    c.rule.isStructural = true := by
  unfold kindOf at h
  split at h
  · cases h
    rfl
  split at h
  · cases h
    rfl
  · cases h

theorem structural_parameterFindings {place : Pointer} {k : Kind}
    {params : List (String × Json)} : Structural (parameterFindings place k params) := by
  refine structural_append.2 ⟨structural_map fun _ => rfl,
    structural_filterMap fun m g => structural_of_complaint fun c hc => ?_⟩
  unfold parameterComplaint? at hc
  split at hc
  · cases hc
    rfl
  split at hc
  · cases hc
    rfl
  split at hc
  · cases hc
    rfl
  · cases hc

theorem structural_elementFindings {name : String} {entry : Json} :
    Structural (elementFindings name entry) := by
  unfold elementFindings
  refine structural_append.2 ⟨?_, ?_⟩
  · split
    · exact structural_singleton.2 rfl
    · exact structural_nil
  split
  · refine structural_append.2 ⟨?_, ?_⟩
    · split
      · exact structural_nil
      · rename_i h
        exact structural_singleton.2 (structural_of_kindOf h)
    · split
      · exact structural_singleton.2 rfl
      · exact structural_nil
      · exact structural_parameterFindings
  · exact structural_singleton.2 rfl

theorem structural_latticeFindings {nesting : Nesting} {isLattice : String → Bool} {name : String}
    {entry : Json} : Structural (latticeFindings nesting isLattice name entry) := by
  unfold latticeFindings
  refine structural_append.2 ⟨?_, ?_⟩
  · split
    · exact structural_singleton.2 rfl
    · exact structural_nil
  split
  · exact structural_singleton.2 rfl
  refine structural_filterMap fun m g => structural_of_complaint fun c hc => ?_
  unfold itemComplaint? at hc
  split at hc
  · split at hc
    · cases hc
      rfl
    · cases hc
  · split at hc
    · cases hc
      rfl
    split at hc
    · cases hc
      rfl
    · cases hc
  · cases hc
    rfl

/-- What comes before the names is about single entries. -/
theorem structural_entryFindings {nesting : Nesting} {isLattice : String → Bool}
    {elements lattices : List (String × Json)} :
    Structural (shapeFindings doc ++ unknownKeyFindings doc ++
      elements.flatMap (fun (name, entry) => elementFindings name entry) ++
      lattices.flatMap (fun (name, entry) => latticeFindings nesting isLattice name entry)) := by
  simp only [structural_append]
  exact ⟨⟨⟨structural_shapeFindings, structural_unknownKeyFindings⟩,
    structural_flatMap fun _ => structural_elementFindings⟩,
    structural_flatMap fun _ => structural_latticeFindings⟩

/-! ## Well-shaped values -/

variable {lenient : Bool} {isElement isLattice : String → Bool} {name : String} {entry : Json}

/-- Of what is wrong with the names in a lattice only a clash of its own name is about a single
entry. -/
theorem passes_filter_nameFindings :
    Passes lenient ((nameFindings isElement isLattice name entry).filter Finding.isStructural) ↔
      ¬ isElement name := by
  unfold nameFindings
  rw [List.filter_append, List.filter_filterMap, passes_append]
  constructor
  · intro h hname
    rw [if_pos hname] at h
    exact absurd (h.1 _ List.mem_cons_self).2 Bool.false_ne_true
  · intro hname
    rw [if_neg hname]
    refine ⟨passes_nil, passes_filterMap.2 fun m _ g hg => ?_⟩
    obtain ⟨hg, hstructural⟩ := Option.filter_eq_some_iff.1 hg
    obtain ⟨s, -, hg⟩ := Option.bind_eq_some_iff.1 hg
    split at hg
    · cases hg
    · cases hg
      cases hstructural

theorem passes_filter_rootFindings {root : Option Json} :
    Passes lenient ((rootFindings isElement isLattice root).filter Finding.isStructural) ↔
      ∀ s, root = some (.str s) → isElement s → isLattice s := by
  unfold rootFindings
  cases hroot : root.bind Json.text? with
  | none =>
    refine ⟨fun _ s hs => ?_, fun _ => passes_nil⟩
    rw [hs] at hroot
    cases hroot
  | some s =>
    obtain ⟨v, rfl, hv⟩ := Option.bind_eq_some_iff.1 hroot
    obtain rfl := text?_eq_some_iff.1 hv
    dsimp only
    split
    · rename_i h
      refine ⟨fun _ t ht _ => ?_, fun _ => passes_nil⟩
      cases ht
      exact h
    split
    · rename_i hlattice helement
      exact ⟨fun h => absurd (h _ List.mem_cons_self).2 Bool.false_ne_true,
        fun h => absurd (h s rfl helement) hlattice⟩
    · rename_i helement
      refine ⟨fun _ t ht h => ?_, fun _ => passes_nil⟩
      cases ht
      exact absurd h helement

theorem filter_cycleFindings {lattices : List (String × Json)} :
    (cycleFindings lattices).filter Finding.isStructural = [] := by
  rw [List.filter_eq_nil_iff]
  intro f hf
  obtain ⟨cycle, -, rfl⟩ := List.mem_map.1 hf
  exact Bool.false_ne_true

/-- No broken rule about a single entry is an error if and only if the object is a well-shaped
document. -/
theorem passes_filter_objectFindings_iff {policy : Policy} :
    Passes (isLenient policy.mode (.obj doc))
      ((objectFindings policy.nesting doc).filter Finding.isStructural) ↔
      ∃ version elements lattices, WellShapedObject policy doc version elements lattices := by
  unfold objectFindings
  dsimp only
  rw [List.filter_append, List.filter_append, List.filter_append, filter_cycleFindings,
    List.filter_eq_self.2 structural_entryFindings, List.filter_flatMap, List.append_nil,
    passes_append, passes_append, passes_entryFindings_iff]
  simp only [passes_flatMap, passes_filter_nameFindings, passes_filter_rootFindings]
  constructor
  · rintro ⟨⟨⟨v, es, ls, h⟩, hnames⟩, hroot⟩
    rw [h.elementTable, h.latticeTable] at hnames hroot
    simp only [Option.bind_some, Json.members?, Option.getD_some, Table.has_iff] at hnames hroot
    have hdistinct : ∀ name ∈ Table.keys ls, name ∉ Table.keys es := by
      intro name hname
      obtain ⟨entry, hentry⟩ := Table.mem_keys.1 hname
      exact hnames _ hentry
    -- a root that is an element would be a lattice too
    exact ⟨v, es, ls, h, hdistinct, fun name hname hel => hdistinct name (hroot name hname hel) hel⟩
  · rintro ⟨v, es, ls, h⟩
    refine ⟨⟨⟨v, es, ls, h.toWellFormedEntries⟩, ?_⟩, ?_⟩
    all_goals
      rw [h.elementTable, h.latticeTable]
      simp only [Option.bind_some, Json.members?, Option.getD_some, Table.has_iff]
    · exact fun m hm => h.distinct _ (Table.mem_keys_of_mem hm)
    · exact fun s hs hel => absurd hel (h.root s hs)

/-- No broken rule about a single entry is an error if and only if the value is well shaped. -/
theorem passes_structural_iff {policy : Policy} {v : Json} :
    Passes (isLenient policy.mode v) ((findings policy.nesting v).filter Finding.isStructural) ↔
      WellShaped policy v := by
  unfold findings
  cases v with
  | obj doc =>
    refine passes_filter_objectFindings_iff.trans ⟨?_, ?_⟩
    · rintro ⟨version, es, ls, h⟩
      exact ⟨doc, version, es, ls, rfl, h⟩
    · rintro ⟨doc', version, es, ls, heq, h⟩
      cases heq
      exact ⟨version, es, ls, h⟩
  | _ =>
    constructor
    · exact fun h => absurd (h _ List.mem_cons_self).2 Bool.false_ne_true
    · rintro ⟨doc, version, es, ls, heq, -⟩
      cases heq

/-! ## Names that are not defined -/

theorem filterMap_dangling_of_structural (h : Structural fs) :
    fs.filterMap Finding.dangling? = [] := by
  rw [List.filterMap_eq_nil_iff]
  intro f hf
  have hf := h f hf
  unfold Finding.dangling?
  split
  · rename_i hc
    rw [Finding.isStructural, hc] at hf
    cases hf
  · rename_i hc
    rw [Finding.isStructural, hc] at hf
    cases hf
  · rfl

/-- Whether a document defines neither an element nor a lattice of that name. -/
def isUndefined (v : Json) (name : String) : Bool :=
  !(Table.has (entriesOf v "elements") name || Table.has (entriesOf v "lattices") name)

theorem filterMap_dangling_nameFindings {v : Json} {l : Nat} :
    (nameFindings (Table.has (entriesOf v "elements")) (Table.has (entriesOf v "lattices")) name
      entry).filterMap Finding.dangling? =
      ((entryReferences l name entry).filter fun r => isUndefined v r.2.name).map Prod.snd := by
  have hclash : Structural (if Table.has (entriesOf v "elements") name then
      [⟨["lattices", name], .nameClash name⟩] else []) := by
    split
    · exact structural_singleton.2 rfl
    · exact structural_nil
  unfold nameFindings entryReferences walk
  dsimp only
  rw [List.filterMap_append, filterMap_dangling_of_structural hclash, List.nil_append, walkFrom_eq,
    List.filterMap_map, List.filterMap_filterMap, List.filter_filterMap, List.map_filterMap]
  congr 1
  funext m
  obtain ⟨way, item⟩ := m
  dsimp only [Function.comp_apply]
  cases item.text? with
  | none => rfl
  | some s =>
    rw [Option.bind_some, Option.map_some, Option.filter_some, isUndefined]
    cases Table.has (entriesOf v "elements") s || Table.has (entriesOf v "lattices") s <;> rfl

theorem filterMap_dangling_rootFindings {v : Json} :
    (rootFindings (Table.has (entriesOf v "elements")) (Table.has (entriesOf v "lattices"))
      (v.get? "root")).filterMap Finding.dangling? =
      ((rootReferences (v.get? "root")).filter fun r => isUndefined v r.2.name).map Prod.snd := by
  unfold rootFindings rootReferences
  cases (v.get? "root").bind Json.text? with
  | none => rfl
  | some s =>
    cases hl : Table.has (entriesOf v "lattices") s <;>
      cases he : Table.has (entriesOf v "elements") s <;>
        simp [isUndefined, Finding.dangling?, hl, he]

/-- The names that findings say are not defined are the references to undefined names, in the order
of the document. -/
theorem filterMap_dangling_findings (nesting : Nesting) (v : Json) :
    (findings nesting v).filterMap Finding.dangling? =
      ((references v).filter fun r => isUndefined v r.2.name).map Prod.snd := by
  unfold findings
  cases v with
  | obj doc =>
    have hcycles : (cycleFindings (entriesOf (.obj doc) "lattices")).filterMap
        Finding.dangling? = [] := by
      rw [cycleFindings, List.filterMap_map]
      exact List.filterMap_eq_nil_iff.2 fun _ _ => rfl
    have hindices : ∀ g : String × Json → List Dangling,
        (entriesOf (.obj doc) "lattices").zipIdx.flatMap (fun m => g m.1) =
          (entriesOf (.obj doc) "lattices").flatMap g := by
      intro g
      rw [← List.flatMap_map Prod.fst g, List.zipIdx_map_fst]
    rw [references, List.filter_append, List.filter_flatMap, List.map_append, List.map_flatMap,
      ← filterMap_dangling_rootFindings]
    simp only [← filterMap_dangling_nameFindings]
    rw [hindices fun m => (nameFindings _ _ m.1 m.2).filterMap _, ← List.filterMap_flatMap]
    change (objectFindings nesting doc).filterMap _ = _
    unfold objectFindings
    dsimp only
    rw [List.filterMap_append, List.filterMap_append, List.filterMap_append,
      filterMap_dangling_of_structural structural_entryFindings, List.nil_append]
    exact (congrArg _ hcycles).trans (List.append_nil _)
  | _ => rfl

/-! ## Three ways to be ill formed -/

/-- A well-shaped document refers to nothing undefined if and only if the names in its lattices are
defined and its root is a lattice. -/
theorem not_dangles_iff {policy : Policy} {version : Version}
    {elements lattices : List (String × Json)}
    (h : WellShapedObject policy doc version elements lattices) :
    (¬ ∃ spot r, Dangles (.obj doc) spot r) ↔
      (∀ name items, (name, .arr items) ∈ lattices → ∀ s, Occurs (.str s) items →
        s ∈ Table.keys elements ∨ s ∈ Table.keys lattices) ∧
      ∀ name, doc.lookup "root" = some (.str name) → name ∈ Table.keys lattices := by
  have helements := entriesOf_eq h.elementTable
  have hlattices := entriesOf_eq h.latticeTable
  constructor
  · intro hnone
    refine ⟨fun name items hmem s hs => ?_, fun name hroot => ?_⟩
    · obtain ⟨l, hl⟩ := List.mem_iff_getElem?.1 hmem
      obtain ⟨way, hway⟩ := exists_itemAt_iff.2 hs
      by_contra hno
      rw [not_or] at hno
      exact hnone ⟨_, _, .item (hlattices ▸ hl) hway, helements ▸ hno.1, hlattices ▸ hno.2⟩
    · by_contra hno
      exact hnone ⟨_, _, .root hroot, helements ▸ h.root name hroot, hlattices ▸ hno⟩
  · rintro ⟨hdefined, hroot⟩ ⟨spot, r, hrefers, hel, hlat⟩
    rw [helements] at hel
    rw [hlattices] at hlat
    cases hrefers with
    | item hentry hitem =>
      rw [hlattices] at hentry
      exact (hdefined _ _ (List.mem_of_getElem? hentry) _ (exists_itemAt_iff.1 ⟨_, hitem⟩)).elim
        hel hlat
    | root h => exact hlat (hroot _ h)

/-- A value is a well-formed document if it is well shaped, it refers to nothing undefined and none
of its lattices holds itself. -/
theorem wellFormed_iff {policy : Policy} {v : Json} : WellFormed policy v ↔
    WellShaped policy v ∧ (¬ ∃ spot r, Dangles v spot r) ∧
      ∀ name, ¬ Relation.TransGen (Nests (entriesOf v "lattices")) name name := by
  constructor
  · rintro ⟨doc, version, es, ls, rfl, h⟩
    have hroot : ∀ name, doc.lookup "root" = some (.str name) → name ∉ Table.keys es :=
      fun name hname hel => h.distinct name (h.root name hname) hel
    have hshaped : WellShapedObject policy doc version es ls := ⟨h.entries, h.distinct, hroot⟩
    refine ⟨⟨doc, version, es, ls, rfl, hshaped⟩,
      (not_dangles_iff hshaped).2 ⟨h.defined, h.root⟩, ?_⟩
    rw [entriesOf_eq h.latticeTable]
    exact h.acyclic
  · rintro ⟨⟨doc, version, es, ls, rfl, h⟩, hdangles, hacyclic⟩
    obtain ⟨hdefined, hroot⟩ := (not_dangles_iff h).1 hdangles
    rw [entriesOf_eq h.latticeTable] at hacyclic
    exact ⟨doc, version, es, ls, rfl, h.spelled, h.major, h.elementTable, h.latticeTable, h.texts,
      h.known, h.element, h.lattice, h.distinct, hdefined, hroot, hacyclic⟩

end Validation

end Beamline
