import Beamline.Proofs.Json.Pointer
import Beamline.Proofs.Validation.Lattices
import Beamline.Validation

/-!
# Where violations point

Every finding is about a place that the document has.

* `Resolves` : the places of findings name values;
* `resolve?_entry`, `resolve?_way` : the places of entries and of the items in them;
* `resolves_elementFindings`, `resolves_latticeFindings`, … : the findings of each phase;
* `path_resolves` : so do the paths of all violations, read as pointers.
-/

namespace Beamline.Validation

open Pointer

/-- The place of every finding names a value in `v`. -/
def Resolves (v : Json) (fs : List Finding) : Prop :=
  ∀ f ∈ fs, ∃ w, resolve? v f.place = some w

variable {v w entry : Json} {key name : String} {doc : List (String × Json)}
  {fs gs : List Finding}

theorem resolves_nil : Resolves v [] :=
  fun _ h => absurd h List.not_mem_nil

theorem resolves_singleton {f : Finding} (h : resolve? v f.place = some w) : Resolves v [f] := by
  intro g hg
  rw [List.mem_singleton.1 hg]
  exact ⟨w, h⟩

theorem resolves_append (hfs : Resolves v fs) (hgs : Resolves v gs) : Resolves v (fs ++ gs) :=
  fun f hf => (List.mem_append.1 hf).elim (hfs f) (hgs f)

theorem resolves_flatMap {α : Type} {xs : List α} {f : α → List Finding}
    (h : ∀ x ∈ xs, Resolves v (f x)) : Resolves v (xs.flatMap f) := by
  intro g hg
  obtain ⟨x, hx, hg⟩ := List.mem_flatMap.1 hg
  exact h x hx g hg

/-! ## The top of a document -/

theorem resolve?_nil (v : Json) : resolve? v [] = some v :=
  rfl

theorem resolve?_member (h : doc.lookup key = some w) : resolve? (.obj doc) [key] = some w := by
  rw [resolve?_cons, step?, h]
  rfl

theorem resolves_demand {ok : Json → Bool} {c : Complaint} :
    Resolves (.obj doc) (demand doc key ok c) := by
  unfold demand
  cases h : doc.lookup key with
  | none => exact resolves_nil
  | some w =>
    dsimp only
    split_ifs
    · exact resolves_nil
    · exact resolves_singleton (resolve?_member h)

theorem resolves_shapeFindings : Resolves (.obj doc) (shapeFindings doc) := by
  unfold shapeFindings
  refine resolves_append (resolves_append (resolves_append ?_ ?_) ?_) ?_
  · intro f hf
    obtain ⟨key, -, rfl⟩ := List.mem_map.1 hf
    exact ⟨_, resolve?_nil _⟩
  · exact resolves_flatMap fun key _ => resolves_demand
  · exact resolves_flatMap fun key _ => resolves_demand
  · unfold versionFindings
    cases h : doc.lookup "version" with
    | none => exact resolves_nil
    | some entry =>
      dsimp only
      split
      · exact resolves_nil
      · exact resolves_singleton (resolve?_member h)

theorem resolves_unknownKeyFindings : Resolves (.obj doc) (unknownKeyFindings doc) := by
  intro f hf
  obtain ⟨key, hkey, rfl⟩ := List.mem_map.1 hf
  obtain ⟨w, hw⟩ := Table.exists_lookup (List.mem_filter.1 hkey).1
  exact ⟨w, resolve?_member hw⟩

theorem resolves_rootFindings {isElement isLattice : String → Bool} :
    Resolves (.obj doc) (rootFindings isElement isLattice (doc.lookup "root")) := by
  unfold rootFindings
  cases h : doc.lookup "root" with
  | none => exact resolves_nil
  | some w =>
    rw [Option.bind_some]
    cases w.text? with
    | none => exact resolves_nil
    | some name =>
      dsimp only
      split_ifs
      · exact resolves_nil
      · exact resolves_singleton (resolve?_member h)
      · exact resolves_singleton (resolve?_member h)

/-! ## Entries -/

/-- An entry of a table stands at its name in the table. -/
theorem resolve?_entry (hv : v.Distinct) (h : (name, entry) ∈ entriesOf v key) (p : Pointer) :
    resolve? v ([key, name] ++ p) = resolve? entry p := by
  obtain ⟨doc, rfl, hlookup⟩ := exists_of_mem_entriesOf h
  cases hv with
  | obj hnames hvalues =>
    have hnodup : (Table.keys (entriesOf (.obj doc) key)).Nodup := by
      cases hvalues _ (Table.mem_of_lookup hlookup) with
      | obj hnodup _ => exact hnodup
    have hentry := Table.lookup_of_mem hnodup h
    rw [List.cons_append, List.singleton_append, resolve?_cons, step?, hlookup,
      Option.bind_some, resolve?_cons, step?, hentry, Option.bind_some]

theorem resolve?_entry_self (hv : v.Distinct) (h : (name, entry) ∈ entriesOf v key) :
    resolve? v [key, name] = some entry :=
  resolve?_entry hv h []

theorem resolves_parameterFindings {place : Pointer} {k : Kind} {params : List (String × Json)}
    (hplace : resolve? v place = some (.obj params)) :
    Resolves v (parameterFindings place k params) := by
  unfold parameterFindings
  refine resolves_append ?_ ?_
  · intro f hf
    obtain ⟨p, -, rfl⟩ := List.mem_map.1 hf
    exact ⟨_, hplace⟩
  · intro f hf
    obtain ⟨⟨key, value⟩, hkey, hf⟩ := List.mem_filterMap.1 hf
    obtain ⟨c, -, rfl⟩ := Option.map_eq_some_iff.1 hf
    obtain ⟨w, hw⟩ := Table.exists_lookup (Table.mem_keys_of_mem hkey)
    refine ⟨w, ?_⟩
    rw [resolve?_append, hplace]
    exact resolve?_member hw

theorem resolves_pairFindings {place : Pointer} {tag params : Json}
    (hplace : resolve? v place = some (.arr [tag, params])) :
    Resolves v (pairFindings place tag params) := by
  have htag : resolve? v (place ++ ["0"]) = some tag := by
    rw [resolve?_append, hplace]
    rfl
  have hparams : resolve? v (place ++ ["1"]) = some params := by
    rw [resolve?_append, hplace]
    rfl
  unfold pairFindings
  refine resolves_append ?_ ?_
  · cases kindOf tag with
    | ok k => exact resolves_nil
    | error c => exact resolves_singleton htag
  · cases params with
    | obj members =>
      cases kindOf tag with
      | ok k => exact resolves_parameterFindings hparams
      | error c => exact resolves_nil
    | _ => exact resolves_singleton hparams

theorem resolves_elementFindings (hv : v.Distinct) (h : (name, entry) ∈ entriesOf v "elements") :
    Resolves v (elementFindings name entry) := by
  have hplace := resolve?_entry_self hv h
  unfold elementFindings
  refine resolves_append ?_ ?_
  · split_ifs
    · exact resolves_singleton hplace
    · exact resolves_nil
  · split
    · rename_i tag params hitems
      rw [arr_of_items? hitems] at hplace
      exact resolves_pairFindings hplace
    · exact resolves_singleton hplace

/-! ## Items -/

/-- The keys of a way of indices name the item that the way leads to. -/
theorem resolve?_way {items : List Json} {way : List Nat} (h : ItemAt w items way) :
    resolve? (.arr items) (way.map index) = some w := by
  induction h with
  | here h =>
    rw [List.map_singleton, resolve?_cons, step?, itemAt?_index, h]
    rfl
  | inside h _ ih =>
    rw [List.map_cons, resolve?_cons, step?, itemAt?_index, h, Option.bind_some, ih]

/-- The places that a walk over the items of an entry meets. -/
theorem resolve?_spot {items : List Json} {place spot : Pointer}
    (hplace : resolve? v place = some (.arr items)) (h : (spot, w) ∈ walk place items) :
    resolve? v spot = some w := by
  rw [walk, walkFrom_eq] at h
  obtain ⟨⟨way, item⟩, hitem, heq⟩ := List.mem_map.1 h
  cases heq
  rw [placeOf, resolve?_append, hplace]
  exact resolve?_way (mem_waysFrom_zero_iff.1 hitem)

theorem resolves_latticeFindings {nesting : Nesting} {isLattice : String → Bool}
    (hv : v.Distinct) (h : (name, entry) ∈ entriesOf v "lattices") :
    Resolves v (latticeFindings nesting isLattice name entry) := by
  have hplace := resolve?_entry_self hv h
  unfold latticeFindings
  refine resolves_append ?_ ?_
  · split_ifs
    · exact resolves_singleton hplace
    · exact resolves_nil
  · cases hitems : entry.items? with
    | none => exact resolves_singleton hplace
    | some items =>
      rw [arr_of_items? hitems] at hplace
      intro f hf
      obtain ⟨⟨spot, item⟩, hspot, hf⟩ := List.mem_filterMap.1 hf
      obtain ⟨c, -, rfl⟩ := Option.map_eq_some_iff.1 hf
      exact ⟨item, resolve?_spot hplace hspot⟩

theorem resolves_nameFindings {isElement isLattice : String → Bool} (hv : v.Distinct)
    (h : (name, entry) ∈ entriesOf v "lattices") :
    Resolves v (nameFindings isElement isLattice name entry) := by
  have hplace := resolve?_entry_self hv h
  unfold nameFindings
  refine resolves_append ?_ ?_
  · split_ifs
    · exact resolves_singleton hplace
    · exact resolves_nil
  · intro f hf
    obtain ⟨⟨spot, item⟩, hspot, hf⟩ := List.mem_filterMap.1 hf
    obtain ⟨s, -, hf⟩ := Option.bind_eq_some_iff.1 hf
    split_ifs at hf
    cases hf
    cases hitems : entry.items? with
    | none =>
      rw [hitems] at hspot
      cases hspot
    | some items =>
      rw [hitems] at hspot
      rw [arr_of_items? hitems] at hplace
      exact ⟨item, resolve?_spot hplace hspot⟩

theorem resolves_cycleFindings (hv : v.Distinct) :
    Resolves v (cycleFindings (entriesOf v "lattices")) := by
  intro f hf
  obtain ⟨cycle, hcycle, rfl⟩ := List.mem_map.1 hf
  obtain ⟨first, hfirst, hself⟩ := Reach.exists_head_transGen_of_circuit
    (circuit_of_mem_search mem_keys_of_mem_mentions hcycle)
  -- the first lattice of a cycle mentions the second
  obtain ⟨second, hsecond, -⟩ := Relation.TransGen.head'_iff.1 hself
  obtain ⟨entry, hentry⟩ := Table.mem_keys.1
    (mem_keys_of_mentions_ne_nil first (List.ne_nil_of_mem hsecond))
  have hhead : cycle.headD "" = first := by
    rw [List.headD_eq_head?_getD, hfirst]
    rfl
  rw [hhead]
  exact ⟨entry, resolve?_entry_self hv hentry⟩

/-! ## Documents -/

/-- All findings are about places that the value has. -/
theorem resolves_findings (nesting : Nesting) (hv : v.Distinct) :
    Resolves v (findings nesting v) := by
  cases v with
  | obj doc =>
    refine resolves_append (resolves_append (resolves_append (resolves_append (resolves_append
      (resolves_append ?_ ?_) ?_) ?_) ?_) ?_) ?_
    · exact resolves_shapeFindings
    · exact resolves_unknownKeyFindings
    · exact resolves_flatMap fun m hm => resolves_elementFindings hv hm
    · exact resolves_flatMap fun m hm => resolves_latticeFindings hv hm
    · exact resolves_flatMap fun m hm => resolves_nameFindings hv hm
    · exact resolves_rootFindings
    · exact resolves_cycleFindings hv
  | _ => exact resolves_singleton (resolve?_nil _)

/-- The path of every violation, error or warning, is a pointer to a place that the value has. The
written form of a key stands for the key, so that different places have different paths. -/
theorem path_resolves (policy : Policy) (hv : v.Distinct) :
    (∀ x ∈ (validate policy v).errors ++ (validate policy v).warnings,
      ∃ p w, Pointer.parse? x.path = some p ∧ resolve? v p = some w) ∧
    (∀ key, unescape (escape key) = key) ∧ Function.Injective Pointer.text := by
  refine ⟨fun x hx => ?_, unescape_escape, text_injective⟩
  have hmem : x ∈ (findings policy.nesting v).map (Finding.report (isLenient policy.mode v)) := by
    rcases List.mem_append.1 hx with hx | hx
    · exact (List.mem_filter.1 hx).1
    · exact (List.mem_filter.1 hx).1
  obtain ⟨f, hf, rfl⟩ := List.mem_map.1 hmem
  obtain ⟨w, hw⟩ := resolves_findings policy.nesting hv f hf
  exact ⟨f.place, w, parse?_text f.place, hw⟩

/-- A document with slashes and a tilde in its names, two unknown keys, an undefined name and a
lattice that holds itself. -/
def slashedText : String :=
  "\x7b\"version\": \"3.0\", \"a/b\": 1, \"elements\": \x7b\"Q~/1\": [\"drift\", " ++
    "\x7b\"length\": 1, \"x/y\": 2\x7d]\x7d, \"lattices\": \x7b\"L\": [\"Q~/1\", [\"L\", \"N\"]]\x7d\x7d"

theorem path_resolves_slashedText : ∃ v, Json.parse slashedText = .ok v ∧ v.Distinct ∧
    (validate .standard v).errors.map (·.path) =
      ["/a~1b", "/elements/Q~0~11/1/x~1y", "/lattices/L/1/1", "/lattices/L"] ∧
    ∀ path ∈ ["/a~1b", "/elements/Q~0~11/1/x~1y", "/lattices/L/1/1", "/lattices/L"],
      ∃ p w, Pointer.parse? path = some p ∧ resolve? v p = some w := by
  have hpaths : (Json.parse slashedText).toOption.any (fun v =>
      (validate .standard v).errors.map (·.path) ==
        ["/a~1b", "/elements/Q~0~11/1/x~1y", "/lattices/L/1/1", "/lattices/L"]) = true := by
    decide +kernel
  cases hparse : Json.parse slashedText with
  | error fault =>
    rw [hparse] at hpaths
    cases hpaths
  | ok v =>
    rw [hparse, Except.toOption, Option.any_some, beq_iff_eq] at hpaths
    have hv := (Json.parse_readable hparse).distinct
    refine ⟨v, rfl, hv, hpaths, fun path hpath => ?_⟩
    rw [← hpaths] at hpath
    obtain ⟨x, hx, rfl⟩ := List.mem_map.1 hpath
    exact (path_resolves .standard hv).1 x (List.mem_append_left _ hx)

end Beamline.Validation
