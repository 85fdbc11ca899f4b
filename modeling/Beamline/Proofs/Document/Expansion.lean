import Beamline.Document.Expansion
import Beamline.Proofs.Deck.Reader
import Beamline.Proofs.Document.Order

/-!
# What lattices stand for

* `Document.Flattens` : what items stand for, by recursion on the items and into the lattices that
  they name;
* `Document.Lawful.exists_flattens` : every lattice of a lawful document stands for some elements;
* `Walk.run_frame` : a walk meets what the items of its innermost list stand for, and leaves them;
* `Document.Lawful.expand_eq` : so a lattice is expanded to what its items stand for;
* `Document.expand_eq_flattened` : this, with the length, for all documents that can be obtained.
-/

namespace Beamline

open Reach

/-- What items stand for: an element for itself, a lattice and a group for what their items stand
for, one after the other. -/
inductive Document.Flattens (d : Document) : List Item → List Element → Prop
  | nil : Flattens d [] []
  | element {e : Element} {rest : List Item} {es : List Element} (he : e ∈ d.elements)
      (hrest : Flattens d rest es) : Flattens d (.name e.name :: rest) (e :: es)
  | lattice {l : Lattice} {rest : List Item} {inner es : List Element} (hl : l ∈ d.lattices)
      (hinner : Flattens d l.items inner) (hrest : Flattens d rest es) :
      Flattens d (.name l.name :: rest) (inner ++ es)
  | group {items rest : List Item} {inner es : List Element} (hinner : Flattens d items inner)
      (hrest : Flattens d rest es) : Flattens d (.group items :: rest) (inner ++ es)

variable {d : Document}

/-- Items one after the other stand for what they stand for one after the other. -/
theorem Document.Flattens.append {items rest : List Item} {es fs : List Element}
    (h : d.Flattens items es) (hrest : d.Flattens rest fs) :
    d.Flattens (items ++ rest) (es ++ fs) := by
  induction h with
  | nil => exact hrest
  | element he _ ih => exact .element he ih
  | lattice hl hinner _ _ ih =>
    rw [List.append_assoc]
    exact .lattice hl hinner ih
  | group hinner _ _ ih =>
    rw [List.append_assoc]
    exact .group hinner ih

/-! ## Every lattice stands for some elements -/

namespace Document

mutual

theorem exists_flattens_item (i : Item) (hdefined : ∀ s ∈ i.names, d.Defines s)
    (hlattices : ∀ s ∈ i.names, ∀ l ∈ d.lattices, l.name = s → ∃ es, d.Flattens l.items es)
    {rest : List Item} {es : List Element} (hrest : d.Flattens rest es) :
    ∃ es, d.Flattens (i :: rest) es := by
  match i with
  | .name s =>
    rcases hdefined s (by simp [Item.names]) with ⟨e, he, rfl⟩ | ⟨l, hl, rfl⟩
    · exact ⟨_, .element he hrest⟩
    · obtain ⟨inner, hinner⟩ := hlattices l.name (by simp [Item.names]) l hl rfl
      exact ⟨_, .lattice hl hinner hrest⟩
  | .group items =>
    obtain ⟨inner, hinner⟩ := exists_flattens_items items hdefined hlattices
    exact ⟨_, .group hinner hrest⟩

theorem exists_flattens_items (items : List Item)
    (hdefined : ∀ s ∈ Item.namesOf items, d.Defines s)
    (hlattices : ∀ s ∈ Item.namesOf items, ∀ l ∈ d.lattices, l.name = s →
      ∃ es, d.Flattens l.items es) : ∃ es, d.Flattens items es := by
  match items with
  | [] => exact ⟨[], .nil⟩
  | i :: rest =>
    simp only [Item.namesOf, List.mem_append, or_imp, forall_and] at hdefined hlattices
    obtain ⟨es, hrest⟩ := exists_flattens_items rest hdefined.2 hlattices.2
    exact exists_flattens_item i hdefined.1 hlattices.1 hrest

end

/-- Every lattice of a lawful document stands for some elements. -/
theorem Lawful.exists_flattens (h : d.Lawful) {l : Lattice} (hl : l ∈ d.lattices) :
    ∃ es, d.Flattens l.items es := by
  -- by induction on the order of dependency, in which all that a lattice names comes first
  have hall : ∀ nodes : List String, Layered d.Mentions nodes → ∀ l ∈ d.lattices,
      l.name ∈ nodes → ∃ es, d.Flattens l.items es := by
    intro nodes
    induction nodes with
    | nil => exact fun _ _ _ hmem => absurd hmem List.not_mem_nil
    | cons node nodes ih =>
      intro hlayered l hl hmem
      rcases List.mem_cons.1 hmem with rfl | hmem
      · apply exists_flattens_items l.items (h.defined l hl)
        rintro s hs l' hl' rfl
        exact ih hlayered.2 l' hl' (hlayered.1 _ ⟨l, hl, rfl, hs, l', hl', rfl⟩)
      · exact ih hlayered.2 l hl hmem
  apply hall _ h.layered_inDependencyOrder l hl
  rw [List.mem_reverse]
  exact List.mem_map_of_mem (h.inDependencyOrder_perm.mem_iff.2 hl)

theorem Lawful.element?_of_lattice (h : d.Lawful) {l : Lattice} (hl : l ∈ d.lattices) :
    d.element? l.name = none := by
  rw [Document.element?, List.find?_eq_none]
  intro e he
  simpa using h.distinct e he l hl

end Document

/-! ## Walks -/

namespace Walk

variable {w next : Walk}

theorem run_of_frames (h : w.frames = []) : w.run d = .ok w.found.reverse := by
  rw [run, dif_pos h]

theorem run_of_step (hframes : w.frames ≠ []) (hstep : w.step d = .ok next) :
    w.run d = next.run d := by
  rw [run, dif_neg hframes]
  split
  · rename_i herror
    rw [hstep] at herror
    cases herror
  · rename_i hok
    rw [hstep] at hok
    cases hok
    rfl

/-- Every lattice on the path leads to `here`, and each lattice that is named among the items is
mentioned there. -/
structure Stands (d : Document) (path : List String) (here : String) (items : List Item) :
    Prop where
  path : ∀ name ∈ path, name = here ∨ Relation.TransGen d.Mentions name here
  items : ∀ s ∈ Item.namesOf items, ∀ l ∈ d.lattices, l.name = s → d.Mentions here s

variable {path : List String} {here : String} {i : Item} {items rest : List Item}

theorem Stands.tail (h : Stands d path here (i :: rest)) : Stands d path here rest where
  path := h.path
  items := fun s hs => h.items s (List.mem_append_right _ hs)

theorem Stands.group (h : Stands d path here (.group items :: rest)) :
    Stands d path here items where
  path := h.path
  items := fun s hs => h.items s (List.mem_append_left _ hs)

/-- A path that leads to a lattice does not go through the lattices that are named there. -/
theorem Stands.not_mem (hlawful : d.Lawful) {l : Lattice} (hl : l ∈ d.lattices)
    (h : Stands d path here (.name l.name :: rest)) : l.name ∉ path := by
  have hhere := h.items l.name (List.mem_append_left _ (List.mem_singleton_self _)) l hl rfl
  intro hmem
  apply hlawful.acyclic l.name
  rcases h.path l.name hmem with heq | hreach
  · exact .single (heq ▸ hhere)
  · exact .tail hreach hhere

theorem stands_lattice {l : Lattice} (hl : l ∈ d.lattices)
    (hpath : ∀ name ∈ path, Relation.TransGen d.Mentions name l.name) :
    Stands d (l.name :: path) l.name l.items where
  path := List.forall_mem_cons.2 ⟨.inl rfl, fun name hname => .inr (hpath name hname)⟩
  items := by
    rintro s hs l' hl' rfl
    exact ⟨l, hl, rfl, hs, l', hl', rfl⟩

theorem Stands.lattice {l : Lattice} (hl : l ∈ d.lattices)
    (h : Stands d path here (.name l.name :: rest)) :
    Stands d (l.name :: path) l.name l.items := by
  have hhere := h.items l.name (List.mem_append_left _ (List.mem_singleton_self _)) l hl rfl
  apply stands_lattice hl
  intro name hname
  rcases h.path name hname with rfl | hreach
  · exact .single hhere
  · exact .tail hreach hhere

/-! ### Steps -/

variable {lattice : Option String} {frames : List Frame}

theorem run_leave (h : w.frames = ⟨[], lattice⟩ :: frames) : w.run d = w.leave.run d := by
  apply run_of_step (by simp [h])
  rw [step, h]

theorem run_group (h : w.frames = ⟨.group items :: rest, lattice⟩ :: frames) :
    w.run d = (w.pass.descend items).run d := by
  apply run_of_step (by simp [h])
  rw [step, h]

theorem run_element {s : String} {e : Element}
    (h : w.frames = ⟨.name s :: rest, lattice⟩ :: frames) (he : d.element? s = some e) :
    w.run d = (w.pass.meet e).run d := by
  apply run_of_step (by simp [h])
  rw [step, h]
  simp only [he]

theorem run_lattice {s : String} {l : Lattice}
    (h : w.frames = ⟨.name s :: rest, lattice⟩ :: frames) (he : d.element? s = none)
    (hl : d.lattice? s = some l) (hfresh : l.name ∉ w.path) :
    w.run d = (w.pass.enter l).run d := by
  apply run_of_step (by simp [h])
  rw [step, h]
  simp only [he, hl]
  rw [if_neg (by rwa [List.contains_iff_mem])]

theorem frames_pass (h : w.frames = ⟨i :: rest, lattice⟩ :: frames) :
    w.pass.frames = ⟨rest, lattice⟩ :: frames := by
  simp [pass, h]

/-- Where a walk goes on behind an item, it stands as it stood before. -/
theorem Stands.behind (h : Stands d w.path here (i :: rest))
    (hframes : w.frames = ⟨i :: rest, lattice⟩ :: frames)
    (hnext : next.frames = ⟨rest, lattice⟩ :: frames) : Stands d next.path here rest := by
  have hpath : next.path = w.path := by
    rw [next.path_eq, w.path_eq, hnext, hframes]
    rfl
  rw [hpath]
  exact h.tail

/-- A walk meets what the items of its innermost list stand for, and leaves that list. -/
theorem run_frame (hlawful : d.Lawful) {es : List Element} (hes : d.Flattens items es) :
    ∀ (w : Walk) (lattice : Option String) (frames : List Frame) (here : String),
      w.frames = ⟨items, lattice⟩ :: frames → Stands d w.path here items →
      ∃ w' : Walk, w'.frames = frames ∧ w'.found = es.reverse ++ w.found ∧
        w.run d = w'.run d := by
  induction hes with
  | nil =>
    intro w lattice frames here hw _
    exact ⟨w.leave, by simp [leave, hw], rfl, run_leave hw⟩
  | @element e rest es he _ ih =>
    intro w lattice frames here hw hstands
    obtain ⟨w', hframes, hfound, hrun⟩ :=
      ih (w.pass.meet e) lattice frames here (frames_pass hw) hstands.tail
    refine ⟨w', hframes, by simp [hfound, meet, pass], ?_⟩
    rw [run_element hw (hlawful.element?_of_mem he), hrun]
  | @lattice l rest inner es hl _ _ ihinner ih =>
    intro w lattice frames here hw hstands
    obtain ⟨w₁, hframes₁, hfound₁, hrun₁⟩ :=
      ihinner (w.pass.enter l) (some l.name) (⟨rest, lattice⟩ :: frames) l.name
        (congrArg _ (frames_pass hw)) (hstands.lattice hl)
    obtain ⟨w₂, hframes₂, hfound₂, hrun₂⟩ :=
      ih w₁ lattice frames here hframes₁ (hstands.behind hw hframes₁)
    refine ⟨w₂, hframes₂, by simp [hfound₂, hfound₁, enter, pass], ?_⟩
    rw [run_lattice hw (hlawful.element?_of_lattice hl) (hlawful.lattice?_of_mem hl)
      (hstands.not_mem hlawful hl), hrun₁, hrun₂]
  | @group items rest inner es _ _ ihinner ih =>
    intro w lattice frames here hw hstands
    obtain ⟨w₁, hframes₁, hfound₁, hrun₁⟩ :=
      ihinner (w.pass.descend items) none (⟨rest, lattice⟩ :: frames) here
        (congrArg _ (frames_pass hw)) hstands.group
    obtain ⟨w₂, hframes₂, hfound₂, hrun₂⟩ :=
      ih w₁ lattice frames here hframes₁ (hstands.behind hw hframes₁)
    refine ⟨w₂, hframes₂, by simp [hfound₂, hfound₁, descend, pass], ?_⟩
    rw [run_group hw, hrun₁, hrun₂]

/-- A walk into a lattice ends with what the items of the lattice stand for. -/
theorem run_start (hlawful : d.Lawful) {l : Lattice} (hl : l ∈ d.lattices) {es : List Element}
    (hes : d.Flattens l.items es) : (start l).run d = .ok es := by
  obtain ⟨w, hframes, hfound, hrun⟩ := run_frame hlawful hes (start l) (some l.name) [] l.name rfl
    (stands_lattice hl (by simp))
  rw [hrun, run_of_frames hframes, hfound]
  exact congrArg Except.ok (by simp [start])

end Walk

namespace Document

/-! ## Expansion -/

/-- A lattice is expanded to what its items stand for. -/
theorem Lawful.expand_eq (h : d.Lawful) {l : Lattice} (hl : l ∈ d.lattices) {es : List Element}
    (hes : d.Flattens l.items es) : d.expand l.name = .ok es := by
  rw [expand, h.lattice?_of_mem hl]
  exact Walk.run_start h hl hes

theorem lattice?_eq_none {name : String} (h : ∀ l ∈ d.lattices, l.name ≠ name) :
    d.lattice? name = none := by
  rw [lattice?, List.find?_eq_none]
  intro l hl
  simpa using h l hl

/-- In a document that has been decoded, built or read, a lattice is expanded to what its items
stand for, which is determined, and its length is the sum of the lengths from the left. No other
name is expanded. -/
theorem expand_eq_flattened (h : d.Obtained) (name : String) :
    (∀ l ∈ d.lattices, l.name = name → ∃ es, d.expand name = .ok es ∧
      (∀ es', d.Flattens l.items es' ↔ es' = es) ∧
      d.length name = .ok ((es.map Element.length).foldl (· + ·) (-0.0))) ∧
    ((∀ l ∈ d.lattices, l.name ≠ name) →
      d.expand name = .error (.notFound .lattice name) ∧
      d.length name = .error (.notFound .lattice name)) := by
  have hlawful := lawful_of_obtained h
  constructor
  · rintro l hl rfl
    obtain ⟨es, hes⟩ := hlawful.exists_flattens hl
    have hexpand := hlawful.expand_eq hl hes
    refine ⟨es, hexpand, fun es' => ⟨fun hes' => ?_, fun heq => heq ▸ hes⟩, ?_⟩
    · have hexpand' := hlawful.expand_eq hl hes'
      rw [hexpand] at hexpand'
      exact (Except.ok.inj hexpand').symm
    · rw [length, hexpand, List.foldl_map]
      rfl
  · intro hnone
    have hexpand : d.expand name = .error (.notFound .lattice name) := by
      rw [expand, lattice?_eq_none hnone]
    exact ⟨hexpand, by rw [length, hexpand]; rfl⟩

/-- Parts of a document in which a lattice is used twice, once in a group. -/
def foldedParts : Builder :=
  (((Builder.empty.element ⟨"Q", none, .quadrupole 0.5 none⟩).element
    ⟨"D", none, .drift 2⟩).lattice
    ⟨"RING", [.name "CELL", .group [.name "D", .group [.name "CELL"]]]⟩).lattice
    ⟨"CELL", [.name "Q", .name "D"]⟩

theorem obtained_foldedParts : foldedParts.document.Obtained := by
  have hreachable : foldedParts.Reachable := by
    repeat' constructor
  refine .built hreachable (Builder.build_eq_ok_iff.2 ⟨rfl, ?_, rfl⟩)
  rw [← Validation.passes_findings_iff, ← Validation.accepted_iff]
  decide +kernel

theorem elements_foldedParts : foldedParts.document.elements =
    [⟨"Q", none, .quadrupole 0.5 none⟩, ⟨"D", none, .drift 2⟩] := by
  with_unfolding_all rfl

theorem lattices_foldedParts : foldedParts.document.lattices =
    [⟨"RING", [.name "CELL", .group [.name "D", .group [.name "CELL"]]]⟩,
      ⟨"CELL", [.name "Q", .name "D"]⟩] := by
  with_unfolding_all rfl

/-- The lattice that is used twice stands in its place both times. -/
theorem expand_foldedParts : ∃ es, foldedParts.document.expand "RING" = .ok es ∧
    es.map Element.name = ["Q", "D", "D", "Q", "D"] ∧ foldedParts.document.length "RING" =
      .ok ((es.map Element.length).foldl (· + ·) (-0.0)) := by
  obtain ⟨es, hexpand, hiff, hlength⟩ := (expand_eq_flattened obtained_foldedParts "RING").1
    ⟨"RING", [.name "CELL", .group [.name "D", .group [.name "CELL"]]]⟩
    (by simp [lattices_foldedParts]) rfl
  refine ⟨es, hexpand, ?_, hlength⟩
  have hQ : ⟨"Q", none, .quadrupole 0.5 none⟩ ∈ foldedParts.document.elements := by
    simp [elements_foldedParts]
  have hD : ⟨"D", none, .drift 2⟩ ∈ foldedParts.document.elements := by
    simp [elements_foldedParts]
  have hCELL : ⟨"CELL", [.name "Q", .name "D"]⟩ ∈ foldedParts.document.lattices := by
    simp [lattices_foldedParts]
  have hcell := Flattens.element hQ (.element hD .nil)
  rw [← (hiff _).1 (.lattice hCELL hcell (.group (.element hD (.group
    (.lattice hCELL hcell .nil) .nil)) .nil))]
  rfl

end Document

end Beamline
