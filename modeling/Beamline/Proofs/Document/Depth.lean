import Beamline.Proofs.Document.Builder
import Beamline.Proofs.Json.Depth

/-!
# Groups that nest too deep

A builder takes groups however deep they nest, a reader only as deep as a text may nest.

* `Item.depth`, `Item.depthOf` : how deep groups nest;
* `Document.readable_toJson_iff` : the room that the raw form of a document asks of a reader;
* `Document.decode_encode_of_shallow`, `Document.decode_encode_of_deep` : a document that was built
  is decoded as it was if there is the room for it, and refused for its depth if not;
* `Document.decode_encode_of_build` : the two together;
* `Document.not_decode_encode_of_build` : a document that was built and cannot be read.
-/

namespace Beamline

open Validation

/-! ## Depth -/

namespace Item

mutual

/-- How deep groups nest in an item; a name has no depth. -/
def depth : Item → Nat
  | .name _ => 0
  | .group items => depthOf items + 1

/-- How deep groups nest in a list of items. -/
def depthOf : List Item → Nat
  | [] => 0
  | i :: rest => max (depth i) (depthOf rest)

end

theorem depthOf_le_iff {items : List Item} {n : Nat} :
    depthOf items ≤ n ↔ ∀ i ∈ items, i.depth ≤ n := by
  induction items with
  | nil => simp [depthOf]
  | cons i items ih => rw [depthOf, Nat.max_le, ih, List.forall_mem_cons]

/-- An item with `n` groups around it. -/
def wrapped : Nat → Item → Item
  | 0, i => i
  | n + 1, i => .group [wrapped n i]

theorem depth_wrapped (n : Nat) (s : String) : (wrapped n (.name s)).depth = n := by
  induction n with
  | zero => rw [wrapped, depth]
  | succ n ih => rw [wrapped, depth, depthOf, depthOf, ih, Nat.max_zero]

mutual

theorem readable_toJson_iff : ∀ (i : Item) (room : Nat),
    Json.Readable room (toJson i) ↔ i.depth ≤ room
  | .name s, room => by
    rw [toJson, Json.Readable.eq_def, depth]
    exact ⟨fun _ => Nat.zero_le _, fun _ => trivial⟩
  | .group items, 0 => by
    rw [toJson, depth]
    exact ⟨fun h => h.elim, fun h => absurd h (Nat.not_succ_le_zero _)⟩
  | .group items, room + 1 => by
    rw [toJson, depth, Nat.add_le_add_iff_right]
    exact readable_listToJson_iff items room

/-- The raw form of items asks for as much room as groups nest deep. -/
theorem readable_listToJson_iff : ∀ (items : List Item) (room : Nat),
    (∀ v ∈ listToJson items, Json.Readable room v) ↔ depthOf items ≤ room
  | [], room => by simp [listToJson, depthOf]
  | i :: is, room => by
    rw [listToJson, List.forall_mem_cons, readable_toJson_iff i room,
      readable_listToJson_iff is room, depthOf, Nat.max_le]

end

end Item

namespace Document

variable {d : Document}

/-- The raw form of a document without extras asks for three levels and those of its groups. -/
theorem readable_toJson_iff (h : d.Lawful) (hextras : d.extras = []) {room : Nat} :
    Json.Readable (room + 5) d.toJson ↔ ∀ l ∈ d.lattices, Item.depthOf l.items ≤ room + 2 := by
  constructor
  · intro hr l hl
    have hmembers := members_members h.extras
    have htable : Json.Readable (room + 4) (.obj d.latticeTable) :=
      hr.2 _ (Table.mem_of_lookup hmembers.lattices)
    exact (Item.readable_listToJson_iff l.items _).1 (htable.2 _ (mem_latticeTable hl))
  · intro hdepth
    refine readable_toJson h ⟨?_, fun m hm => ?_⟩ (by simp [hextras])
    · rw [keys_latticeTable]
      exact h.latticeNames
    · obtain ⟨l, hl, rfl⟩ := List.mem_map.1 hm
      exact (Item.readable_listToJson_iff l.items _).2 (hdepth l hl)

theorem exists_depth_le (d : Document) : ∃ n, ∀ l ∈ d.lattices, Item.depthOf l.items ≤ n := by
  refine ⟨Item.depthOf (d.lattices.map fun l => .group l.items), fun l hl => ?_⟩
  have := Item.depthOf_le_iff.1 le_rfl (Item.group l.items)
    (List.mem_map_of_mem (f := fun l : Lattice => Item.group l.items) hl)
  rw [Item.depth] at this
  omega

/-! ## What was built is read back, or not -/

/-- A text has room for the document: three levels stand around the groups of a lattice. -/
def Shallow (d : Document) : Prop :=
  ∀ l ∈ d.lattices, Item.depthOf l.items + 3 ≤ Json.maxDepth

theorem shallow_iff (h : d.Lawful) (hextras : d.extras = []) :
    d.Shallow ↔ Json.Readable Json.maxDepth d.toJson := by
  rw [show Json.maxDepth = 122 + 5 from rfl, readable_toJson_iff h hextras]
  exact forall₂_congr fun l _ => Nat.add_le_add_iff_right (n := 3)

variable {b : Builder} (hb : b.Reachable) (h : b.build = .ok d)
include hb h

theorem extras_of_build : d.extras = [] := by
  obtain ⟨-, -, rfl⟩ := Builder.build_eq_ok_iff.1 h
  exact hb.extras_eq

/-- A document that was built is decoded as it was if a text has room for it. -/
theorem decode_encode_of_shallow (hshallow : d.Shallow) : decode .standard d.encode = .ok d := by
  have hlawful := lawful_of_validated (.built hb h)
  have hr := (shallow_iff hlawful (extras_of_build hb h)).1 hshallow
  obtain ⟨-, hwell, rfl⟩ := Builder.build_eq_ok_iff.1 h
  exact decode_eq_ok_iff.2 ⟨_, Json.parse_layoutText hr, hwell, ofJson_toJson hlawful⟩

/-- A document that was built is refused for its depth if a text has no room for it. -/
theorem decode_encode_of_deep (hdeep : ¬ d.Shallow) :
    ∃ fault, decode .standard d.encode = .error (.parse fault) ∧ fault.flaw = .tooDeep := by
  have hlawful := lawful_of_validated (.built hb h)
  have hextras := extras_of_build hb h
  obtain ⟨n, hn⟩ := d.exists_depth_le
  have hr : Json.Readable (n + 5) d.toJson :=
    (readable_toJson_iff hlawful hextras).2 fun l hl => (hn l hl).trans (Nat.le_add_right n 2)
  obtain ⟨fault, hfault, hflaw⟩ :=
    Json.parse_layoutText_tooDeep hr (mt (shallow_iff hlawful hextras).2 hdeep)
  refine ⟨fault, ?_, hflaw⟩
  simp only [decode, encode, hfault]

/-- A document that was built is decoded as it was encoded if and only if its groups nest no deeper
than a text may; if they do, its own text is refused for its depth. -/
theorem decode_encode_of_build :
    (decode .standard d.encode = .ok d ↔
      ∀ l ∈ d.lattices, Item.depthOf l.items + 3 ≤ Json.maxDepth) ∧
    (¬ (∀ l ∈ d.lattices, Item.depthOf l.items + 3 ≤ Json.maxDepth) →
      ∃ fault, decode .standard d.encode = .error (.parse fault) ∧ fault.flaw = .tooDeep) := by
  refine ⟨⟨fun hd => ?_, decode_encode_of_shallow hb h⟩, decode_encode_of_deep hb h⟩
  by_contra hdeep
  obtain ⟨fault, hfault, -⟩ := decode_encode_of_deep hb h hdeep
  rw [hd] at hfault
  cases hfault

omit hb h

/-! ## The deepest groups that are read back -/

/-- An element in a lattice, `n` groups around its name. -/
def wrappedBuilder (n : Nat) : Builder :=
  (Builder.empty.element ⟨"D", none, .drift 1⟩).lattice ⟨"L", [Item.wrapped n (.name "D")]⟩

theorem reachable_wrappedBuilder (n : Nat) : (wrappedBuilder n).Reachable :=
  .lattice (.element .empty _) _

theorem document_wrappedBuilder (n : Nat) :
    (wrappedBuilder n).document.lattices = [⟨"L", [Item.wrapped n (.name "D")]⟩] :=
  rfl

theorem build_wrappedBuilder {n : Nat} (h : (wrappedBuilder n).build.toOption.isSome = true) :
    (wrappedBuilder n).build = .ok (wrappedBuilder n).document := by
  cases hbuild : (wrappedBuilder n).build with
  | error e =>
    rw [hbuild] at h
    cases h
  | ok d =>
    obtain ⟨-, -, rfl⟩ := Builder.build_eq_ok_iff.1 hbuild
    rfl

theorem depthOf_wrapped (n : Nat) : ∀ l ∈ (wrappedBuilder n).document.lattices,
    Item.depthOf l.items = n := by
  rw [document_wrappedBuilder]
  intro l hl
  rw [List.mem_singleton.1 hl, Item.depthOf, Item.depth_wrapped]
  simp [Item.depthOf]

/-- `decode_encode_of_build` for groups that nest as deep as they may. -/
theorem decode_encode_wrappedBuilder : ∃ (b : Builder) (d : Document), b.Reachable ∧
    b.build = .ok d ∧ decode .standard d.encode = .ok d := by
  have hbuild := build_wrappedBuilder (n := 124) (by decide +kernel)
  refine ⟨_, _, reachable_wrappedBuilder 124, hbuild,
    (decode_encode_of_build (reachable_wrappedBuilder 124) hbuild).1.2 fun l hl => ?_⟩
  rw [depthOf_wrapped 124 l hl]
  decide

/-- One group more, and a document that was built cannot be read. -/
theorem not_decode_encode_of_build : ¬ ∀ (b : Builder) (d : Document), b.Reachable →
    b.build = .ok d → decode .standard d.encode = .ok d := by
  intro hall
  have hbuild := build_wrappedBuilder (n := 125) (by decide +kernel)
  have hdeep : ¬ (wrappedBuilder 125).document.Shallow := by
    intro hshallow
    have hmem : ⟨"L", [Item.wrapped 125 (.name "D")]⟩ ∈ (wrappedBuilder 125).document.lattices :=
      List.mem_singleton_self _
    have := hshallow _ hmem
    rw [depthOf_wrapped 125 _ hmem] at this
    exact absurd this (by decide)
  obtain ⟨fault, hfault, -⟩ :=
    decode_encode_of_deep (reachable_wrappedBuilder 125) hbuild hdeep
  rw [hall _ _ (reachable_wrappedBuilder 125) hbuild] at hfault
  cases hfault

end Document

end Beamline
