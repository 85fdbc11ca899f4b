import Beamline.Proofs.Json.Pointer
import Beamline.Proofs.Validation.References
import Beamline.Validation

/-!
# Findings about other elements

What is found elsewhere does not depend on the entry of an element.

* `place_prefix_of_mem_elementFindings` : what is found in an entry is at its place or below;
* `laterFindings` : what is found behind the elements depends on their names only;
* `replaceElement`, `findings_replaceElement` : another entry in the place of an element changes
  the findings about that entry only;
* `DifferBelow`, `validate_replaceElement` : and so it is with errors and with warnings.
-/

namespace Beamline.Validation

variable {doc es : List (String × Json)} {name key : String} {entry : Json}

/-! ## One entry -/

theorem place_prefix_of_mem_parameterFindings {place : Pointer} {k : Kind}
    {params : List (String × Json)} {f : Finding} (h : f ∈ parameterFindings place k params) :
    place <+: f.place := by
  rcases List.mem_append.1 h with h | h
  · obtain ⟨p, -, rfl⟩ := List.mem_map.1 h
    exact List.prefix_rfl
  · obtain ⟨m, -, h⟩ := List.mem_filterMap.1 h
    obtain ⟨c, -, rfl⟩ := Option.map_eq_some_iff.1 h
    exact List.prefix_append place _

theorem place_prefix_of_mem_pairFindings {place : Pointer} {tag params : Json} {f : Finding}
    (h : f ∈ pairFindings place tag params) : place <+: f.place := by
  have hinner : place <+: place ++ ["1"] := List.prefix_append place _
  rcases List.mem_append.1 h with h | h
  · split at h
    · cases h
    · rw [List.mem_singleton.1 h]
      exact List.prefix_append place _
  · split at h
    · rw [List.mem_singleton.1 h]
      exact hinner
    · cases h
    · exact hinner.trans (place_prefix_of_mem_parameterFindings h)

/-- What is found in the entry of an element is at its place or below. -/
theorem place_prefix_of_mem_elementFindings {f : Finding} (h : f ∈ elementFindings name entry) :
    ["elements", name] <+: f.place := by
  rcases List.mem_append.1 h with h | h
  · split_ifs at h
    · rw [List.mem_singleton.1 h]
    · cases h
  · split at h
    · exact place_prefix_of_mem_pairFindings h
    · rw [List.mem_singleton.1 h]

/-! ## Another table of elements -/

/-- What is found behind the elements. Lattices and the root ask no more of the elements than
whether there is one of a name. -/
def laterFindings (nesting : Nesting) (isElement : String → Bool) (doc : List (String × Json)) :
    List Finding :=
  let lattices := entriesOf (.obj doc) "lattices"
  let isLattice := Table.has lattices
  lattices.flatMap (fun m => latticeFindings nesting isLattice m.1 m.2) ++
    lattices.flatMap (fun m => nameFindings isElement isLattice m.1 m.2) ++
    rootFindings isElement isLattice (doc.lookup "root") ++ cycleFindings lattices

theorem findings_obj (nesting : Nesting) (doc : List (String × Json)) :
    findings nesting (.obj doc) = shapeFindings doc ++ unknownKeyFindings doc ++
      (entriesOf (.obj doc) "elements").flatMap (fun m => elementFindings m.1 m.2) ++
      laterFindings nesting (Table.has (entriesOf (.obj doc) "elements")) doc := by
  unfold laterFindings
  simp only [← List.append_assoc]
  rfl

/-- A document whose elements are given by another table. -/
def putElements (es : List (String × Json)) (doc : List (String × Json)) : List (String × Json) :=
  Table.put "elements" (.obj es) doc

theorem lookup_putElements (h : key ≠ "elements") :
    (putElements es doc).lookup key = doc.lookup key := by
  rw [putElements, Table.lookup_put, if_neg h]

theorem lookup_putElements_self : (putElements es doc).lookup "elements" = some (.obj es) := by
  rw [putElements, Table.lookup_put, if_pos rfl]

theorem demand_putElements {ok : Json → Bool} {c : Complaint} (h : key ≠ "elements") :
    demand (putElements es doc) key ok c = demand doc key ok c := by
  unfold demand
  rw [lookup_putElements h]

theorem demand_isObject {c : Complaint} (h : doc.lookup key = some (.obj es)) :
    demand doc key Json.isObject c = [] := by
  unfold demand
  rw [h]
  rfl

theorem isLenient_putElements (mode : Mode) :
    isLenient mode (.obj (putElements es doc)) = isLenient mode (.obj doc) := by
  show (_ || (readableVersion? _).any _) = (_ || (readableVersion? _).any _)
  unfold readableVersion?
  rw [lookup_putElements (by decide)]

theorem laterFindings_putElements (nesting : Nesting) (isElement : String → Bool) :
    laterFindings nesting isElement (putElements es doc) = laterFindings nesting isElement doc := by
  have hlattices : entriesOf (.obj (putElements es doc)) "lattices" =
      entriesOf (.obj doc) "lattices" := by
    show ((List.lookup _ _).bind _).getD _ = ((List.lookup _ _).bind _).getD _
    rw [lookup_putElements (by decide)]
  unfold laterFindings
  rw [hlattices, lookup_putElements (by decide)]

theorem shapeFindings_putElements (h : doc.lookup "elements" = some (.obj es))
    (es' : List (String × Json)) : shapeFindings (putElements es' doc) = shapeFindings doc := by
  have hhas : Table.has (putElements es' doc) = Table.has doc :=
    Table.has_put_of_mem (Table.lookup_isSome.1 (by simp [h])) _
  unfold shapeFindings versionFindings
  rw [hhas, lookup_putElements (by decide)]
  simp only [tableKeys, textKeys, List.flatMap_cons, List.flatMap_nil]
  rw [demand_isObject lookup_putElements_self, demand_isObject h,
    demand_putElements (by decide), demand_putElements (by decide),
    demand_putElements (by decide), demand_putElements (by decide)]

theorem unknownKeyFindings_putElements (h : doc.lookup "elements" = some (.obj es))
    (es' : List (String × Json)) :
    unknownKeyFindings (putElements es' doc) = unknownKeyFindings doc := by
  have hkeys : Table.keys (putElements es' doc) = Table.keys doc :=
    Table.keys_put_of_mem (Table.lookup_isSome.1 (by simp [h])) _
  rw [unknownKeyFindings, hkeys, unknownKeyFindings]

/-! ## Another entry -/

/-- The value with `entry` in the place of the element `name`. -/
def replaceElement (name : String) (entry : Json) (v : Json) : Json :=
  match v.members? with
  | none => v
  | some doc => .obj (putElements (Table.put name entry (entriesOf v "elements")) doc)

/-- Another entry in the place of an element changes the findings about that entry only. -/
theorem findings_replaceElement (nesting : Nesting) {v : Json}
    (h : name ∈ Table.keys (entriesOf v "elements")) (entry : Json) :
    ∃ before old behind,
      findings nesting v = before ++ elementFindings name old ++ behind ∧
      findings nesting (replaceElement name entry v) =
        before ++ elementFindings name entry ++ behind := by
  obtain ⟨_, hmem⟩ := Table.mem_keys.1 h
  obtain ⟨doc, rfl, helements⟩ := exists_of_mem_entriesOf hmem
  obtain ⟨front, old, rear, hes, hput⟩ := Table.exists_put_eq_append h
  have hhas := Table.has_put_of_mem h entry
  refine ⟨shapeFindings doc ++ unknownKeyFindings doc ++
    front.flatMap (fun m => elementFindings m.1 m.2), old,
    rear.flatMap (fun m => elementFindings m.1 m.2) ++
      laterFindings nesting (Table.has (entriesOf (.obj doc) "elements")) doc, ?_, ?_⟩
  · rw [findings_obj, hes]
    simp only [List.flatMap_append, List.flatMap_cons, List.append_assoc]
  · rw [replaceElement, Json.members?]
    rw [findings_obj, shapeFindings_putElements helements,
      unknownKeyFindings_putElements helements, laterFindings_putElements,
      entriesOf_eq lookup_putElements_self, hhas, hput]
    simp only [List.flatMap_append, List.flatMap_cons, List.append_assoc]

theorem isLenient_replaceElement (mode : Mode) (name : String) (entry v : Json) :
    isLenient mode (replaceElement name entry v) = isLenient mode v := by
  cases v with
  | obj doc => exact isLenient_putElements mode
  | _ => rfl

/-! ## Reports -/

/-- Two lists of violations are the same but for a part of each that is about the place or
something below it. -/
def DifferBelow (place : Pointer) (xs ys : List Violation) : Prop :=
  ∃ before own own' behind, xs = before ++ own ++ behind ∧ ys = before ++ own' ++ behind ∧
    ∀ x ∈ own ++ own', Pointer.Covers place x.path

variable {place : Pointer} {xs ys : List Violation}

theorem DifferBelow.filter (h : DifferBelow place xs ys) (p : Violation → Bool) :
    DifferBelow place (xs.filter p) (ys.filter p) := by
  obtain ⟨before, own, own', behind, rfl, rfl, hcovers⟩ := h
  refine ⟨before.filter p, own.filter p, own'.filter p, behind.filter p, by simp, by simp, ?_⟩
  intro x hx
  rw [← List.filter_append] at hx
  exact hcovers x (List.mem_filter.1 hx).1

/-- Another entry in the place of an element changes the errors about that entry only, and the
warnings about it only. All other violations are the same, in the same order. -/
theorem validate_replaceElement (policy : Policy) {v : Json}
    (h : name ∈ Table.keys (entriesOf v "elements")) (entry : Json) :
    (DifferBelow ["elements", name] (validate policy v).errors
      (validate policy (replaceElement name entry v)).errors) ∧
    (DifferBelow ["elements", name] (validate policy v).warnings
      (validate policy (replaceElement name entry v)).warnings) := by
  obtain ⟨before, old, behind, hold, hnew⟩ := findings_replaceElement policy.nesting h entry
  have hdiffer : ∀ lenient, DifferBelow ["elements", name]
      ((findings policy.nesting v).map (Finding.report lenient))
      ((findings policy.nesting (replaceElement name entry v)).map (Finding.report lenient)) := by
    intro lenient
    refine ⟨before.map (Finding.report lenient),
      (elementFindings name old).map (Finding.report lenient),
      (elementFindings name entry).map (Finding.report lenient), behind.map (Finding.report lenient),
      by simp [hold], by simp [hnew], ?_⟩
    intro x hx
    rw [← List.map_append] at hx
    obtain ⟨f, hf, rfl⟩ := List.mem_map.1 hx
    obtain ⟨p, hp⟩ : ["elements", name] <+: f.place := by
      rcases List.mem_append.1 hf with hf | hf
      · exact place_prefix_of_mem_elementFindings hf
      · exact place_prefix_of_mem_elementFindings hf
    show Pointer.Covers _ f.place.text
    rw [← hp]
    exact Pointer.covers_append _ _
  unfold validate Report.ofViolations
  rw [isLenient_replaceElement]
  exact ⟨(hdiffer _).filter _, (hdiffer _).filter _⟩

/-- Two faulty elements, and a lattice that names one of them and something undefined. -/
def faultyElements : Json :=
  .obj [("version", .str "3.0"),
    ("elements", .obj [("A/1", .arr [.str "drift"]), ("B", .arr [.str "ghost", .obj []])]),
    ("lattices", .obj [("L", .arr [.str "A/1", .str "N"])])]

theorem validate_replaceElement_faultyElements :
    "A/1" ∈ Table.keys (entriesOf faultyElements "elements") ∧
    DifferBelow ["elements", "A/1"] (validate .standard faultyElements).errors
      (validate .standard (replaceElement "A/1" .null faultyElements)).errors ∧
    (validate .standard faultyElements).errors.map (·.path) =
      ["/elements/A~11", "/elements/B/0", "/lattices/L/1"] ∧
    (validate .standard (replaceElement "A/1" (.arr [.str "drift", .obj [("length", .str "")]])
      faultyElements)).errors.map (·.path) =
      ["/elements/A~11/1/length", "/elements/B/0", "/lattices/L/1"] := by
  have hmem : "A/1" ∈ Table.keys (entriesOf faultyElements "elements") := by decide
  exact ⟨hmem, (validate_replaceElement .standard hmem .null).1, by decide +kernel,
    by decide +kernel⟩

end Beamline.Validation
