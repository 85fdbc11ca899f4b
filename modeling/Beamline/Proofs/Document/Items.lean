import Beamline.Document.Decode
import Beamline.Document.Encode
import Beamline.Proofs.Bind
import Beamline.Proofs.Validation.Lattices

/-!
# Items and their raw forms

* `Item.listOfJson_eq_ok_iff` : items are read from exactly their raw form;
* `Item.exists_listOfJson` : what validation takes for items describes items;
* `Item.Within` : an item occurs in a list of items at some depth;
* `Item.occurs_listToJson_iff`, `Item.within_name_iff` : what occurs in raw items, and the names in
  items.
-/

namespace Beamline

open Validation

namespace Item

/-! ## Reading raw items -/

mutual

theorem toJson_of_ofJson : ∀ (v : Json) (i : Item), ofJson v = .ok i → toJson i = v
  | .str s, i, h => by
    cases h
    rfl
  | .arr vs, i, h => by
    obtain ⟨items, hitems, rfl⟩ := map_eq_ok.1 h
    rw [toJson, listToJson_of_listOfJson vs items hitems]
  | .null, _, h | .bool _, _, h | .num _, _, h | .obj _, _, h => by cases h

theorem listToJson_of_listOfJson : ∀ (vs : List Json) (items : List Item),
    listOfJson vs = .ok items → listToJson items = vs
  | [], items, h => by
    cases h
    rfl
  | v :: vs, items, h => by
    obtain ⟨i, hi, h⟩ := bind_eq_ok.1 h
    obtain ⟨is, his, h⟩ := bind_eq_ok.1 h
    cases h
    rw [listToJson, toJson_of_ofJson v i hi, listToJson_of_listOfJson vs is his]

end

mutual

theorem ofJson_toJson : ∀ i : Item, ofJson (toJson i) = .ok i
  | .name s => rfl
  | .group items => by
    rw [toJson, ofJson, listOfJson_listToJson items]
    rfl

theorem listOfJson_listToJson : ∀ items : List Item, listOfJson (listToJson items) = .ok items
  | [] => rfl
  | i :: is => by
    rw [listToJson, listOfJson]
    exact bind_eq_ok.2 ⟨i, ofJson_toJson i, bind_eq_ok.2 ⟨is, listOfJson_listToJson is, rfl⟩⟩

end

/-- Items are read from exactly their raw form. -/
theorem listOfJson_eq_ok_iff {vs : List Json} {items : List Item} :
    listOfJson vs = .ok items ↔ listToJson items = vs :=
  ⟨listToJson_of_listOfJson vs items, fun h => h ▸ listOfJson_listToJson items⟩

mutual

theorem exists_ofJson : ∀ v : Json, (∃ s, v = .str s) ∨ (∃ inner, v = .arr inner ∧ inner ≠ []) →
    (∀ inner, v = .arr inner → ∀ w, Occurs w inner →
      (∃ s, w = .str s) ∨ ∃ inner, w = .arr inner ∧ inner ≠ []) → ∃ i, ofJson v = .ok i
  | .str s, _, _ => ⟨.name s, rfl⟩
  | .arr vs, _, h => by
    obtain ⟨items, hitems⟩ := exists_listOfJson vs (h vs rfl)
    exact ⟨.group items, map_eq_ok.2 ⟨items, hitems, rfl⟩⟩
  | .null, h, _ | .bool _, h, _ | .num _, h, _ | .obj _, h, _ => by
    rcases h with ⟨s, hs⟩ | ⟨inner, hi, -⟩
    · cases hs
    · cases hi

theorem exists_listOfJson : ∀ vs : List Json,
    (∀ w, Occurs w vs → (∃ s, w = .str s) ∨ ∃ inner, w = .arr inner ∧ inner ≠ []) →
    ∃ items, listOfJson vs = .ok items
  | [], _ => ⟨[], rfl⟩
  | v :: vs, h => by
    obtain ⟨i, hi⟩ := exists_ofJson v (h v (.here List.mem_cons_self)) fun inner hv w hw =>
      h w (.inside (hv ▸ List.mem_cons_self) hw)
    obtain ⟨is, his⟩ := exists_listOfJson vs fun w hw => h w (occurs_cons_iff.2 (.inr (.inr hw)))
    exact ⟨i :: is, bind_eq_ok.2 ⟨i, hi, bind_eq_ok.2 ⟨is, his, rfl⟩⟩⟩

end

/-! ## What occurs in items -/

/-- An item is one of a list of items or, at any depth, of a group among them. -/
inductive Within (i : Item) : List Item → Prop where
  | here {items : List Item} : i ∈ items → Within i items
  | inside {items inner : List Item} : .group inner ∈ items → Within i inner → Within i items

theorem not_within_nil {i : Item} : ¬ Within i [] := by
  rintro (h | h)
  · cases h
  · cases h

theorem within_cons_iff {i j : Item} {items : List Item} : Within i (j :: items) ↔
    i = j ∨ (∃ inner, j = .group inner ∧ Within i inner) ∨ Within i items := by
  constructor
  · rintro (h | ⟨h, hi⟩)
    · exact (List.mem_cons.1 h).imp id fun h => .inr (.here h)
    · rcases List.mem_cons.1 h with h | h
      · exact .inr (.inl ⟨_, h.symm, hi⟩)
      · exact .inr (.inr (.inside h hi))
  · rintro (rfl | ⟨inner, rfl, hi⟩ | (h | ⟨h, hi⟩))
    · exact .here List.mem_cons_self
    · exact .inside List.mem_cons_self hi
    · exact .here (List.mem_cons_of_mem _ h)
    · exact .inside (List.mem_cons_of_mem _ h) hi

theorem toJson_mem_listToJson {i : Item} {items : List Item} (h : i ∈ items) :
    toJson i ∈ listToJson items := by
  induction items with
  | nil => cases h
  | cons j items ih =>
    rcases List.mem_cons.1 h with rfl | h
    · exact List.mem_cons_self
    · exact List.mem_cons_of_mem _ (ih h)

/-- What occurs in raw items is the raw form of what occurs in the items. -/
theorem occurs_listToJson_iff {v : Json} {items : List Item} :
    Occurs v (listToJson items) ↔ ∃ i, v = toJson i ∧ Within i items := by
  constructor
  · intro h
    generalize hvs : listToJson items = vs at h
    induction h generalizing items with
    | here hmem =>
      subst hvs
      induction items with
      | nil => cases hmem
      | cons i items ih =>
        rcases List.mem_cons.1 hmem with rfl | hmem
        · exact ⟨i, rfl, .here List.mem_cons_self⟩
        · obtain ⟨j, hj, hwithin⟩ := ih hmem
          exact ⟨j, hj, within_cons_iff.2 (.inr (.inr hwithin))⟩
    | inside hmem _ ih =>
      subst hvs
      induction items with
      | nil => cases hmem
      | cons i items ihitems =>
        rcases List.mem_cons.1 hmem with heq | hmem
        · cases i with
          | name s => cases heq
          | group inner =>
            cases heq
            obtain ⟨j, hj, hwithin⟩ := ih rfl
            exact ⟨j, hj, .inside List.mem_cons_self hwithin⟩
        · obtain ⟨j, hj, hwithin⟩ := ihitems hmem
          exact ⟨j, hj, within_cons_iff.2 (.inr (.inr hwithin))⟩
  · rintro ⟨i, rfl, h⟩
    induction h with
    | here h => exact .here (toJson_mem_listToJson h)
    | inside h _ ih => exact .inside (toJson_mem_listToJson h) ih

mutual

theorem mem_names_iff {s : String} : ∀ i : Item,
    s ∈ names i ↔ .name s = i ∨ ∃ items, i = .group items ∧ Within (.name s) items
  | .name t => by simp [names]
  | .group items => by
    rw [names, within_name_iff items]
    simp

theorem within_name_iff {s : String} : ∀ items : List Item,
    s ∈ namesOf items ↔ Within (.name s) items
  | [] => by simp [namesOf, not_within_nil]
  | i :: items => by
    rw [within_cons_iff, namesOf, List.mem_append, mem_names_iff i, within_name_iff items, or_assoc]

end

/-- Items name something unless there are none or a group among them is empty. -/
theorem namesOf_ne_nil : ∀ {items : List Item}, items ≠ [] →
    (∀ g, Within (.group g) items → g ≠ []) → namesOf items ≠ []
  | [], h, _ => absurd rfl h
  | .name s :: items, _, _ => by simp [namesOf, names]
  | .group g :: items, _, hgroups => by
    have hg := namesOf_ne_nil (hgroups g (.here List.mem_cons_self))
      fun g' h => hgroups g' (.inside List.mem_cons_self h)
    simp [namesOf, names, hg]

theorem namesOf_map_name (ss : List String) : namesOf (ss.map .name) = ss := by
  induction ss with
  | nil => rfl
  | cons s ss ih => rw [List.map_cons, namesOf, names, ih, List.singleton_append]

theorem map_name_namesOf : ∀ {items : List Item}, (∀ g, ¬ Within (.group g) items) →
    (namesOf items).map .name = items
  | [], _ => rfl
  | .name s :: items, h => by
    have hitems := map_name_namesOf fun g hg => h g (within_cons_iff.2 (.inr (.inr hg)))
    simp [namesOf, names, hitems]
  | .group g :: items, h => absurd (.here List.mem_cons_self) (h g)

theorem not_within_map_name {g : List Item} {ss : List String} :
    ¬ Within (.group g) (ss.map .name) := by
  rintro (h | ⟨h, -⟩)
  · obtain ⟨s, -, hs⟩ := List.mem_map.1 h
    cases hs
  · obtain ⟨s, -, hs⟩ := List.mem_map.1 h
    cases hs

theorem occurs_str_iff {s : String} {items : List Item} :
    Occurs (.str s) (listToJson items) ↔ s ∈ namesOf items := by
  rw [occurs_listToJson_iff, within_name_iff]
  constructor
  · rintro ⟨i, hi, h⟩
    cases i with
    | name t =>
      cases hi
      exact h
    | group items => cases hi
  · exact fun h => ⟨.name s, rfl, h⟩

theorem occurs_arr_iff {inner : List Json} {items : List Item} :
    Occurs (.arr inner) (listToJson items) ↔
      ∃ g, inner = listToJson g ∧ Within (.group g) items := by
  rw [occurs_listToJson_iff]
  constructor
  · rintro ⟨i, hi, h⟩
    cases i with
    | name t => cases hi
    | group g =>
      cases hi
      exact ⟨g, rfl, h⟩
  · rintro ⟨g, rfl, h⟩
    exact ⟨.group g, rfl, h⟩

mutual

theorem same_self : ∀ i : Item, i.same i = true
  | .name s => by simp [same]
  | .group items => by rw [same, sameItems_self items]

theorem sameItems_self : ∀ items : List Item, sameItems items items = true
  | [] => rfl
  | i :: items => by rw [sameItems, same_self i, sameItems_self items, Bool.and_self]

end

end Item

theorem Lattice.same_self (l : Lattice) : l.same l = true := by
  rw [same, Item.sameItems_self, beq_self_eq_true, Bool.and_self]

end Beamline
