import Beamline.Error
import Beamline.Proofs.Table
import Beamline.Proofs.Validation.WellFormed
import Beamline.Validation.Lattices

/-!
# What a document refers to

A raw document refers to something by name in the items of its lattices, at any depth, and in its
root.

* `ItemAt`, `Spot`, `Spot.Before` : the places of items, and the order in which they stand in a
  document;
* `Refers`, `Dangles` : a name stands at a spot, and nothing is defined by that name;
* `waysFrom`, `references` : the items of an array with the ways to them, and all that a document
  refers to;
* `walkFrom_eq`, `exists_mem_walk_iff` : the walk over items follows these ways, and so meets what
  occurs at any depth;
* `mem_references_iff`, `pairwise_references` : every reference is listed, and in order.
-/

namespace Beamline.Validation

/-! ## Places -/

/-- The indices lead to `v` among the items of an array, each but the last to a group. -/
inductive ItemAt (v : Json) : List Json → List Nat → Prop where
  | here {items : List Json} {i : Nat} : items[i]? = some v → ItemAt v items [i]
  | inside {items inner : List Json} {i : Nat} {way : List Nat} :
    items[i]? = some (.arr inner) → ItemAt v inner way → ItemAt v items (i :: way)

/-- A place where a document can refer to something: an item of one of its lattices, which the
indices `way` lead to, or the root. -/
inductive Spot where
  | item (lattice : Nat) (way : List Nat)
  | root

/-- The order of a document: lattice by lattice, in each of them item by item, and the root at
the end. -/
inductive Spot.Before : Spot → Spot → Prop where
  | lattice {l l' : Nat} {way way' : List Nat} : l < l' → Before (.item l way) (.item l' way')
  | way {l : Nat} {way way' : List Nat} : way < way' → Before (.item l way) (.item l way')
  | root {l : Nat} {way : List Nat} : Before (.item l way) .root

/-- The entries of the table `key` of a raw document; a document without the table has none. -/
def entriesOf (v : Json) (key : String) : List (String × Json) :=
  ((v.get? key).bind Json.members?).getD []

theorem entriesOf_eq {doc members : List (String × Json)} {key : String}
    (h : doc.lookup key = some (.obj members)) : entriesOf (.obj doc) key = members := by
  rw [entriesOf, Json.get?, Json.members?, Option.bind_some, h]
  rfl

/-- Only an object has the entries of a table, and the table is one of its members. -/
theorem exists_of_mem_entriesOf {v : Json} {key : String} {m : String × Json}
    (h : m ∈ entriesOf v key) :
    ∃ doc, v = .obj doc ∧ doc.lookup key = some (.obj (entriesOf v key)) := by
  unfold entriesOf at h ⊢
  cases htable : (v.get? key).bind Json.members? with
  | none =>
    rw [htable] at h
    cases h
  | some members =>
    obtain ⟨table, hkey, hmembers⟩ := Option.bind_eq_some_iff.1 htable
    obtain ⟨doc, hdoc, hlookup⟩ := Option.bind_eq_some_iff.1 hkey
    refine ⟨doc, ?_, ?_⟩
    · cases v <;> cases hdoc
      rfl
    · rw [hlookup]
      cases table <;> cases hmembers
      rfl

/-- The document refers to a name at the spot; the text of the place is the pointer to it. -/
inductive Refers (v : Json) : Spot → Dangling → Prop where
  | item {l : Nat} {lattice name : String} {items : List Json} {way : List Nat} :
    (entriesOf v "lattices")[l]? = some (lattice, .arr items) → ItemAt (.str name) items way →
    Refers v (.item l way) ⟨name, Pointer.text ("lattices" :: lattice :: way.map Pointer.index)⟩
  | root {name : String} : v.get? "root" = some (.str name) →
    Refers v .root ⟨name, Pointer.text ["root"]⟩

/-- The document refers to a name that it does not define. -/
structure Dangles (v : Json) (spot : Spot) (r : Dangling) : Prop where
  refers : Refers v spot r
  noElement : r.name ∉ Table.keys (entriesOf v "elements")
  noLattice : r.name ∉ Table.keys (entriesOf v "lattices")

/-! ## Ways to items -/

variable {v w : Json} {items : List Json}

theorem itemAt_cons_zero {way : List Nat} : ItemAt v (w :: items) (0 :: way) ↔
    way = [] ∧ v = w ∨ ∃ inner, w = .arr inner ∧ ItemAt v inner way := by
  constructor
  · rintro (h | ⟨h, hv⟩)
    · exact .inl ⟨rfl, (Option.some.inj h).symm⟩
    · exact .inr ⟨_, Option.some.inj h, hv⟩
  · rintro (⟨rfl, rfl⟩ | ⟨inner, rfl, hv⟩)
    · exact .here rfl
    · exact .inside rfl hv

theorem itemAt_cons_succ {i : Nat} {way : List Nat} :
    ItemAt v (w :: items) ((i + 1) :: way) ↔ ItemAt v items (i :: way) := by
  constructor
  · rintro (h | ⟨h, hv⟩)
    · exact .here h
    · exact .inside h hv
  · rintro (h | ⟨h, hv⟩)
    · exact .here h
    · exact .inside h hv

theorem not_itemAt_nil {way : List Nat} : ¬ ItemAt v [] way := by
  rintro (h | ⟨h, -⟩)
  · cases h
  · cases h

/-- Indices lead to a value if and only if it occurs. -/
theorem exists_itemAt_iff : (∃ way, ItemAt v items way) ↔ Occurs v items := by
  constructor
  · rintro ⟨way, h⟩
    induction h with
    | here h => exact .here (List.mem_of_getElem? h)
    | inside h _ ih => exact .inside (List.mem_of_getElem? h) ih
  · intro h
    induction h with
    | here h =>
      obtain ⟨i, hi⟩ := List.mem_iff_getElem?.1 h
      exact ⟨[i], .here hi⟩
    | inside h _ ih =>
      obtain ⟨i, hi⟩ := List.mem_iff_getElem?.1 h
      obtain ⟨way, hway⟩ := ih
      exact ⟨i :: way, .inside hi hway⟩

mutual

/-- The items in a value with the ways to them. -/
def waysInto : Json → List (List Nat × Json)
  | .arr items => waysFrom 0 items
  | _ => []

/-- The items of the rest of an array that starts at index `i`, with the ways to them. -/
def waysFrom (i : Nat) : List Json → List (List Nat × Json)
  | [] => []
  | v :: rest =>
    ([i], v) :: (waysInto v).map (fun m => (i :: m.1, m.2)) ++ waysFrom (i + 1) rest

end

/-- The place that a way leads to from another one. -/
def placeOf (place : Pointer) (way : List Nat) : Pointer :=
  place ++ way.map Pointer.index

mutual

theorem inner_eq : ∀ (w : Json) (place : Pointer),
    inner place w = (waysInto w).map fun m => (placeOf place m.1, m.2)
  | .arr items, place => by rw [inner, waysInto, walkFrom_eq items]
  | .null, _ | .bool _, _ | .num _, _ | .str _, _ | .obj _, _ => by simp [inner, waysInto]

/-- The walk over items follows the ways to them. -/
theorem walkFrom_eq : ∀ (items : List Json) (place : Pointer) (i : Nat),
    walkFrom place i items = (waysFrom i items).map fun m => (placeOf place m.1, m.2)
  | [], _, _ => rfl
  | w :: items, place, i => by
    rw [walkFrom, waysFrom, walkFrom_eq items, inner_eq w]
    simp [placeOf, Function.comp_def]

end

mutual

theorem mem_waysInto_iff {v : Json} {way : List Nat} : ∀ w : Json,
    (way, v) ∈ waysInto w ↔ ∃ items, w = .arr items ∧ ItemAt v items way
  | .arr items => by
    rw [waysInto, mem_waysFrom_iff items 0]
    constructor
    · rintro ⟨j, rest, rfl, h⟩
      exact ⟨items, rfl, by rwa [Nat.zero_add]⟩
    · rintro ⟨items', heq, h⟩
      cases heq
      cases h with
      | here h => exact ⟨_, _, by rw [Nat.zero_add], .here h⟩
      | inside h h' => exact ⟨_, _, by rw [Nat.zero_add], .inside h h'⟩
  | .null | .bool _ | .num _ | .str _ | .obj _ => by simp [waysInto]

/-- The ways of an array are those that lead to something in it. -/
theorem mem_waysFrom_iff {v : Json} {way : List Nat} : ∀ (items : List Json) (i : Nat),
    (way, v) ∈ waysFrom i items ↔ ∃ j rest, way = (i + j) :: rest ∧ ItemAt v items (j :: rest)
  | [], i => by simp [waysFrom, not_itemAt_nil]
  | w :: items, i => by
    rw [waysFrom, List.mem_append, List.mem_cons, List.mem_map, mem_waysFrom_iff items (i + 1)]
    constructor
    · rintro ((h | ⟨m, hm, h⟩) | ⟨j, rest, rfl, h⟩)
      · obtain ⟨rfl, rfl⟩ := Prod.mk.inj h
        exact ⟨0, [], rfl, itemAt_cons_zero.2 (.inl ⟨rfl, rfl⟩)⟩
      · obtain ⟨rfl, rfl⟩ := Prod.mk.inj h
        exact ⟨0, m.1, rfl, itemAt_cons_zero.2 (.inr ((mem_waysInto_iff w).1 hm))⟩
      · exact ⟨j + 1, rest, by rw [Nat.add_assoc, Nat.add_comm 1 j], itemAt_cons_succ.2 h⟩
    · rintro ⟨j, rest, rfl, h⟩
      cases j with
      | zero =>
        rcases itemAt_cons_zero.1 h with ⟨rfl, rfl⟩ | h
        · exact .inl (.inl rfl)
        · exact .inl (.inr ⟨(rest, v), (mem_waysInto_iff w).2 h, rfl⟩)
      | succ j =>
        exact .inr ⟨j, rest, by rw [Nat.add_assoc, Nat.add_comm 1 j], itemAt_cons_succ.1 h⟩

end

theorem mem_waysFrom_zero_iff {way : List Nat} :
    (way, v) ∈ waysFrom 0 items ↔ ItemAt v items way := by
  rw [← waysInto, mem_waysInto_iff]
  constructor
  · rintro ⟨items', heq, h⟩
    cases heq
    exact h
  · exact fun h => ⟨items, rfl, h⟩

/-- The walk over all items meets what occurs in them. -/
theorem exists_mem_walk_iff (place : Pointer) :
    (∃ spot, (spot, v) ∈ walk place items) ↔ Occurs v items := by
  rw [← exists_itemAt_iff, walk, walkFrom_eq]
  constructor
  · rintro ⟨spot, h⟩
    obtain ⟨⟨way, w⟩, hw, heq⟩ := List.mem_map.1 h
    cases heq
    exact ⟨way, mem_waysFrom_zero_iff.1 hw⟩
  · rintro ⟨way, h⟩
    exact ⟨_, List.mem_map.2 ⟨(way, v), mem_waysFrom_zero_iff.2 h, rfl⟩⟩

mutual

theorem pairwise_waysInto : ∀ w : Json, (waysInto w).Pairwise fun a b => a.1 < b.1
  | .arr items => by
    rw [waysInto]
    exact pairwise_waysFrom items 0
  | .null | .bool _ | .num _ | .str _ | .obj _ => by simp [waysInto]

/-- The ways of an array come in order. -/
theorem pairwise_waysFrom : ∀ (items : List Json) (i : Nat),
    (waysFrom i items).Pairwise fun a b => a.1 < b.1
  | [], _ => List.Pairwise.nil
  | w :: items, i => by
    -- the ways behind the first item start with a later index
    have hlater : ∀ m ∈ waysFrom (i + 1) items, ∀ way, i :: way < m.1 := by
      intro m hm way
      obtain ⟨j, rest, heq, -⟩ := (mem_waysFrom_iff items (i + 1)).1 hm
      rw [heq]
      exact List.cons_lt_cons_iff.2 (.inl (by omega))
    rw [waysFrom, List.pairwise_append]
    refine ⟨List.pairwise_cons.2 ⟨fun m hm => ?_, ?_⟩, pairwise_waysFrom items (i + 1),
      fun a ha b hb => ?_⟩
    · obtain ⟨⟨way, u⟩, hu, rfl⟩ := List.mem_map.1 hm
      obtain ⟨inner, -, hu⟩ := (mem_waysInto_iff w).1 hu
      refine List.cons_lt_cons_iff.2 (.inr ⟨rfl, ?_⟩)
      cases hu <;> exact List.nil_lt_cons _ _
    · rw [List.pairwise_map]
      exact (pairwise_waysInto w).imp fun h => List.cons_lt_cons_iff.2 (.inr ⟨rfl, h⟩)
    · rcases List.mem_cons.1 ha with rfl | ha
      · exact hlater b hb []
      · obtain ⟨m, -, rfl⟩ := List.mem_map.1 ha
        exact hlater b hb m.1

end

/-! ## References -/

/-- What the lattice with the index `l` refers to. -/
def entryReferences (l : Nat) (lattice : String) (entry : Json) : List (Spot × Dangling) :=
  (waysFrom 0 (entry.items?.getD [])).filterMap fun m =>
    m.2.text?.map fun name =>
      (.item l m.1, ⟨name, Pointer.text (placeOf ["lattices", lattice] m.1)⟩)

/-- What the root refers to. -/
def rootReferences (root : Option Json) : List (Spot × Dangling) :=
  (root.bind Json.text?).toList.map fun name => (.root, ⟨name, Pointer.text ["root"]⟩)

/-- All that a document refers to. -/
def references (v : Json) : List (Spot × Dangling) :=
  (entriesOf v "lattices").zipIdx.flatMap (fun m => entryReferences m.2 m.1.1 m.1.2) ++
    rootReferences (v.get? "root")

theorem text?_eq_some_iff {s : String} : v.text? = some s ↔ v = .str s := by
  cases v <;> simp [Json.text?]

theorem mem_entryReferences_iff {l : Nat} {lattice : String} {entry : Json}
    {m : Spot × Dangling} : m ∈ entryReferences l lattice entry ↔
      ∃ items way name, entry = .arr items ∧ ItemAt (.str name) items way ∧
        m = (.item l way,
          ⟨name, Pointer.text ("lattices" :: lattice :: way.map Pointer.index)⟩) := by
  rw [entryReferences, List.mem_filterMap]
  constructor
  · rintro ⟨⟨way, w⟩, hw, h⟩
    obtain ⟨name, hname, rfl⟩ := Option.map_eq_some_iff.1 h
    obtain rfl := text?_eq_some_iff.1 hname
    cases entry with
    | arr items => exact ⟨items, way, name, rfl, mem_waysFrom_zero_iff.1 hw, rfl⟩
    | _ => cases hw
  · rintro ⟨items, way, name, rfl, hitem, rfl⟩
    exact ⟨(way, .str name), mem_waysFrom_zero_iff.2 hitem, rfl⟩

/-- Every reference of a document is listed, and nothing else. -/
theorem mem_references_iff {spot : Spot} {r : Dangling} :
    (spot, r) ∈ references v ↔ Refers v spot r := by
  rw [references, List.mem_append, List.mem_flatMap]
  constructor
  · rintro (⟨⟨⟨lattice, entry⟩, l⟩, hm, h⟩ | h)
    · obtain ⟨items, way, name, rfl, hitem, heq⟩ := mem_entryReferences_iff.1 h
      cases heq
      exact .item (List.mem_zipIdx_iff_getElem?.1 hm) hitem
    · obtain ⟨name, hname, heq⟩ := List.mem_map.1 h
      cases heq
      obtain ⟨w, hw, hname⟩ := Option.bind_eq_some_iff.1 (Option.mem_toList.1 hname)
      rw [text?_eq_some_iff.1 hname] at hw
      exact .root hw
  · intro h
    cases h with
    | @item l lattice name items way hentry hitem =>
      exact .inl ⟨((lattice, .arr items), l), List.mem_zipIdx_iff_getElem?.2 hentry,
        mem_entryReferences_iff.2 ⟨items, way, name, rfl, hitem, rfl⟩⟩
    | root hroot =>
      rw [rootReferences, hroot]
      exact .inr List.mem_cons_self

/-- The references of a document are listed in its order. -/
theorem pairwise_references (v : Json) :
    (references v).Pairwise fun a b => a.1.Before b.1 := by
  rw [references, List.pairwise_append, List.pairwise_flatMap]
  refine ⟨⟨fun m _ => ?_, ?_⟩, ?_, fun a ha b hb => ?_⟩
  · -- in one lattice
    rw [entryReferences, List.pairwise_filterMap]
    refine (pairwise_waysFrom _ 0).imp fun hab a ha b hb => ?_
    obtain ⟨-, -, rfl⟩ := Option.map_eq_some_iff.1 ha
    obtain ⟨-, -, rfl⟩ := Option.map_eq_some_iff.1 hb
    exact .way hab
  · -- in two lattices
    have hindices : ((entriesOf v "lattices").zipIdx.map Prod.snd).Pairwise (· < ·) := by
      rw [List.zipIdx_map_snd]
      exact List.pairwise_lt_range'
    refine (List.pairwise_map.1 hindices).imp fun hab a ha b hb => ?_
    obtain ⟨-, -, -, -, -, rfl⟩ := mem_entryReferences_iff.1 ha
    obtain ⟨-, -, -, -, -, rfl⟩ := mem_entryReferences_iff.1 hb
    exact .lattice hab
  · -- at the root
    rw [rootReferences, List.pairwise_map]
    cases (v.get? "root").bind Json.text? with
    | none => exact List.Pairwise.nil
    | some name => exact List.pairwise_singleton _ _
  · obtain ⟨m, -, ha⟩ := List.mem_flatMap.1 ha
    obtain ⟨-, -, -, -, -, rfl⟩ := mem_entryReferences_iff.1 ha
    obtain ⟨-, -, rfl⟩ := List.mem_map.1 hb
    exact .root

end Beamline.Validation
