import Beamline.Document.Tree
import Beamline.Proofs.Document.Expansion

/-!
# What trees show

* `Node` : an element, or a lattice or group with what is inside it, with its drawing by recursion
  and the elements in it;
* `Document.Unfolds` : how items are nested, by recursion on the items and into the lattices that
  they name;
* `Drawing.run_frame` : a drawing shows how the items of its innermost list are nested, and leaves
  them;
* `Document.tree_eq_draw` : so the tree of a lattice is the drawing of its nesting, whose elements
  are those that the lattice is expanded to.
-/

namespace Beamline

/-- What a line of a tree stands for: an element, or a lattice or group with what is inside it. -/
inductive Node
  | element (name : String)
  | inside (label : String) (nodes : List Node)

namespace Node

mutual

/-- The lines of a node behind `lead`, the last of its list or not: the line of the node itself, and
behind `lead` and a bar, unless it is the last of its list, the lines of what is inside it. -/
def draw (lead : String) (last : Bool) : Node → String
  | element name => lead ++ (if last then "└── " else "├── ") ++ name ++ "\n"
  | inside label ns =>
    lead ++ (if last then "└── " else "├── ") ++ label ++ "\n" ++
      drawAll (lead ++ if last then "    " else "│   ") ns

/-- The lines of the nodes of a list behind `lead`. -/
def drawAll (lead : String) : List Node → String
  | [] => ""
  | n :: ns => n.draw lead ns.isEmpty ++ drawAll lead ns

end

mutual

/-- The names of the elements in a node. -/
def elements : Node → List String
  | element name => [name]
  | inside _ ns => elementsOf ns

def elementsOf : List Node → List String
  | [] => []
  | n :: ns => n.elements ++ elementsOf ns

end

end Node

/-- How items are nested: an element is there by its name, a lattice by its name and a group by a
label with what their items are inside. -/
inductive Document.Unfolds (d : Document) : List Item → List Node → Prop
  | nil : Unfolds d [] []
  | element {e : Element} {rest : List Item} {ns : List Node} (he : e ∈ d.elements)
      (hrest : Unfolds d rest ns) : Unfolds d (.name e.name :: rest) (.element e.name :: ns)
  | lattice {l : Lattice} {rest : List Item} {inner ns : List Node} (hl : l ∈ d.lattices)
      (hinner : Unfolds d l.items inner) (hrest : Unfolds d rest ns) :
      Unfolds d (.name l.name :: rest) (.inside l.name inner :: ns)
  | group {items rest : List Item} {inner ns : List Node} (hinner : Unfolds d items inner)
      (hrest : Unfolds d rest ns) :
      Unfolds d (.group items :: rest) (.inside "(inline)" inner :: ns)

variable {d : Document} {items rest : List Item} {ns : List Node}

namespace Document

/-! ## The nesting of items -/

theorem Unfolds.isEmpty_eq (h : d.Unfolds items ns) : ns.isEmpty = items.isEmpty := by
  cases h <;> rfl

/-- Items that stand for some elements are nested with these elements. -/
theorem Flattens.exists_unfolds {es : List Element} (h : d.Flattens items es) :
    ∃ ns, d.Unfolds items ns ∧ Node.elementsOf ns = es.map Element.name := by
  induction h with
  | nil => exact ⟨[], .nil, rfl⟩
  | element he _ ih =>
    obtain ⟨ns, hns, helements⟩ := ih
    exact ⟨_, .element he hns, by simp [Node.elementsOf, Node.elements, helements]⟩
  | lattice hl _ _ ihinner ih =>
    obtain ⟨inner, hinner, helementsInner⟩ := ihinner
    obtain ⟨ns, hns, helements⟩ := ih
    exact ⟨_, .lattice hl hinner hns,
      by simp [Node.elementsOf, Node.elements, helements, helementsInner]⟩
  | group _ _ ihinner ih =>
    obtain ⟨inner, hinner, helementsInner⟩ := ihinner
    obtain ⟨ns, hns, helements⟩ := ih
    exact ⟨_, .group hinner hns,
      by simp [Node.elementsOf, Node.elements, helements, helementsInner]⟩

/-- In a lawful document items are nested in one way. -/
theorem Unfolds.eq (hlawful : d.Lawful) (h : d.Unfolds items ns) :
    ∀ ns', d.Unfolds items ns' → ns' = ns := by
  induction h with
  | nil =>
    intro ns' h'
    cases h'
    rfl
  | @element e rest ns he _ ih =>
    intro ns' h'
    generalize hitems : Item.name e.name :: rest = items at h'
    cases h' with
    | nil => cases hitems
    | element he' hrest' =>
      obtain ⟨hname, rfl⟩ := List.cons.inj hitems
      rw [ih _ hrest', Item.name.inj hname]
    | lattice hl' =>
      have hname := Item.name.inj (List.cons.inj hitems).1
      exact absurd hname (hlawful.distinct e he _ hl')
    | group => cases hitems
  | @lattice l rest inner ns hl _ _ ihinner ih =>
    intro ns' h'
    generalize hitems : Item.name l.name :: rest = items at h'
    cases h' with
    | nil => cases hitems
    | element he' =>
      have hname := Item.name.inj (List.cons.inj hitems).1
      exact absurd hname.symm (hlawful.distinct _ he' l hl)
    | lattice hl' hinner' hrest' =>
      obtain ⟨hname, rfl⟩ := List.cons.inj hitems
      have hfound := hlawful.lattice?_of_mem hl
      rw [Item.name.inj hname, hlawful.lattice?_of_mem hl'] at hfound
      cases hfound
      rw [ihinner _ hinner', ih _ hrest']
    | group => cases hitems
  | group _ _ ihinner ih =>
    intro ns' h'
    cases h' with
    | group hinner' hrest' => rw [ihinner _ hinner', ih _ hrest']

end Document

/-! ## Drawings -/

namespace Drawing

variable {g next : Drawing} {lattice : Option String} {frames : List Frame}

theorem run_of_frames (h : g.walk.frames = []) : g.run d = .ok g.text := by
  rw [run, dif_pos h]

theorem run_of_step (hframes : g.walk.frames ≠ []) (hstep : g.step d = .ok next) :
    g.run d = next.run d := by
  rw [run, dif_neg hframes]
  split
  · rename_i herror
    rw [hstep] at herror
    cases herror
  · rename_i hok
    rw [hstep] at hok
    cases hok
    rfl

theorem run_outward (h : g.walk.frames = ⟨[], lattice⟩ :: frames) :
    g.run d = (g.outward g.walk.leave).run d := by
  apply run_of_step (by simp [h])
  rw [step, h]

theorem run_element {e : Element} (h : g.walk.frames = ⟨.name e.name :: rest, lattice⟩ :: frames)
    (he : d.element? e.name = some e) :
    g.run d = ((g.draw rest.isEmpty e.name).onward (g.walk.pass.meet e)).run d := by
  apply run_of_step (by simp [h])
  rw [step, h]
  simp only [he]

theorem run_lattice {l : Lattice} (h : g.walk.frames = ⟨.name l.name :: rest, lattice⟩ :: frames)
    (he : d.element? l.name = none) (hl : d.lattice? l.name = some l)
    (hfresh : l.name ∉ g.walk.path) :
    g.run d = ((g.draw rest.isEmpty l.name).inward rest.isEmpty (g.walk.pass.enter l)).run d := by
  apply run_of_step (by simp [h])
  rw [step, h]
  simp only [he, hl]
  rw [if_neg (by rwa [List.contains_iff_mem])]

theorem run_group (h : g.walk.frames = ⟨.group items :: rest, lattice⟩ :: frames) :
    g.run d =
      ((g.draw rest.isEmpty "(inline)").inward rest.isEmpty (g.walk.pass.descend items)).run d := by
  apply run_of_step (by simp [h])
  rw [step, h]

/-- The line of an item and the lines inside it come in front of those of the items behind it. -/
theorem text_inside {lead : String} {leads : List String} (h : g.leads = lead :: leads)
    (label : String) (inner ns : List Node) :
    (g.draw ns.isEmpty label).text ++ Node.drawAll (g.lead ++ stem ns.isEmpty) inner ++
      Node.drawAll lead ns = g.text ++ Node.drawAll lead (.inside label inner :: ns) := by
  rw [Node.drawAll, Node.draw]
  simp only [draw, Drawing.lead, h, List.headD_cons, line, branch, stem, String.append_assoc]

/-- A drawing shows how the items of its innermost list are nested, and leaves that list. -/
theorem run_frame (hlawful : d.Lawful) (hns : d.Unfolds items ns) :
    ∀ (g : Drawing) (lattice : Option String) (frames : List Frame) (lead : String)
      (leads : List String) (here : String), g.walk.frames = ⟨items, lattice⟩ :: frames →
      g.leads = lead :: leads → Walk.Stands d g.walk.path here items →
      ∃ g' : Drawing, g'.walk.frames = frames ∧ g'.leads = leads ∧
        g'.text = g.text ++ Node.drawAll lead ns ∧ g.run d = g'.run d := by
  induction hns with
  | nil =>
    intro g lattice frames lead leads here hframes hleads _
    exact ⟨g.outward g.walk.leave, by simp [outward, Walk.leave, hframes],
      by simp [outward, hleads], by simp [outward, Node.drawAll], run_outward hframes⟩
  | @element e rest ns he hrest ih =>
    intro g lattice frames lead leads here hframes hleads hstands
    obtain ⟨g', hframes', hleads', htext', hrun'⟩ :=
      ih ((g.draw rest.isEmpty e.name).onward (g.walk.pass.meet e)) lattice frames lead leads here
        (Walk.frames_pass hframes) hleads hstands.tail
    refine ⟨g', hframes', hleads', ?_, ?_⟩
    · rw [htext', Node.drawAll, Node.draw, hrest.isEmpty_eq]
      simp only [onward, draw, Drawing.lead, hleads, List.headD_cons, line, branch,
        String.append_assoc]
    · rw [run_element hframes (hlawful.element?_of_mem he), hrun']
  | @lattice l rest inner ns hl _ hrest ihinner ih =>
    intro g lattice frames lead leads here hframes hleads hstands
    obtain ⟨g₁, hframes₁, hleads₁, htext₁, hrun₁⟩ :=
      ihinner ((g.draw rest.isEmpty l.name).inward rest.isEmpty (g.walk.pass.enter l))
        (some l.name) (⟨rest, lattice⟩ :: frames) _ g.leads l.name
        (congrArg _ (Walk.frames_pass hframes)) rfl (hstands.lattice hl)
    obtain ⟨g₂, hframes₂, hleads₂, htext₂, hrun₂⟩ :=
      ih g₁ lattice frames lead leads here hframes₁ (hleads₁.trans hleads)
        (hstands.behind hframes hframes₁)
    refine ⟨g₂, hframes₂, hleads₂, ?_, ?_⟩
    · rw [htext₂, htext₁, ← hrest.isEmpty_eq]
      exact text_inside hleads _ inner ns
    · rw [run_lattice hframes (hlawful.element?_of_lattice hl) (hlawful.lattice?_of_mem hl)
        (hstands.not_mem hlawful hl), hrun₁, hrun₂]
  | @group items rest inner ns _ hrest ihinner ih =>
    intro g lattice frames lead leads here hframes hleads hstands
    obtain ⟨g₁, hframes₁, hleads₁, htext₁, hrun₁⟩ :=
      ihinner ((g.draw rest.isEmpty "(inline)").inward rest.isEmpty (g.walk.pass.descend items))
        none (⟨rest, lattice⟩ :: frames) _ g.leads here
        (congrArg _ (Walk.frames_pass hframes)) rfl hstands.group
    obtain ⟨g₂, hframes₂, hleads₂, htext₂, hrun₂⟩ :=
      ih g₁ lattice frames lead leads here hframes₁ (hleads₁.trans hleads)
        (hstands.behind hframes hframes₁)
    refine ⟨g₂, hframes₂, hleads₂, ?_, ?_⟩
    · rw [htext₂, htext₁, ← hrest.isEmpty_eq]
      exact text_inside hleads _ inner ns
    · rw [run_group hframes, hrun₁, hrun₂]

/-- A drawing of a lattice is the name of the lattice and how its items are nested. -/
theorem run_start (hlawful : d.Lawful) {l : Lattice} (hl : l ∈ d.lattices)
    (hns : d.Unfolds l.items ns) :
    (start l).run d = .ok (l.name ++ "\n" ++ Node.drawAll "" ns) := by
  obtain ⟨g, hframes, -, htext, hrun⟩ := run_frame hlawful hns (start l) (some l.name) [] "" []
    l.name rfl rfl (Walk.stands_lattice hl (by simp))
  rw [hrun, run_of_frames hframes, htext]
  rfl

end Drawing

namespace Document

/-! ## Trees -/

/-- In a document that has been decoded, built or read, the tree of a lattice is its name and below
it the drawing of how its items are nested, which is determined; the elements there are those that
the lattice is expanded to, in their order. No other name has a tree. -/
theorem tree_eq_draw (h : d.Obtained) (name : String) :
    (∀ l ∈ d.lattices, l.name = name → ∃ ns es, (∀ ns', d.Unfolds l.items ns' ↔ ns' = ns) ∧
      d.tree name = .ok (name ++ "\n" ++ Node.drawAll "" ns) ∧
      d.expand name = .ok es ∧ Node.elementsOf ns = es.map Element.name) ∧
    ((∀ l ∈ d.lattices, l.name ≠ name) → d.tree name = .error (.notFound .lattice name)) := by
  have hlawful := lawful_of_obtained h
  constructor
  · rintro l hl rfl
    obtain ⟨es, hes⟩ := hlawful.exists_flattens hl
    obtain ⟨ns, hns, helements⟩ := hes.exists_unfolds
    refine ⟨ns, es, fun ns' => ⟨hns.eq hlawful ns', fun heq => heq ▸ hns⟩, ?_,
      hlawful.expand_eq hl hes, helements⟩
    rw [tree, hlawful.lattice?_of_mem hl]
    exact Drawing.run_start hlawful hl hns
  · intro hnone
    rw [tree, lattice?_eq_none hnone]

/-- The lattice that is used twice is shown in its place both times, the bars beside it told by what
follows it there. -/
theorem tree_foldedParts : foldedParts.document.tree "RING" =
    .ok ("RING\n├── CELL\n│   ├── Q\n│   └── D\n└── (inline)\n    ├── D\n    └── (inline)\n" ++
      "        └── CELL\n            ├── Q\n            └── D\n") := by
  obtain ⟨ns, es, hiff, htree, -⟩ := (tree_eq_draw obtained_foldedParts "RING").1
    ⟨"RING", [.name "CELL", .group [.name "D", .group [.name "CELL"]]]⟩
    (by simp [lattices_foldedParts]) rfl
  have hQ : ⟨"Q", none, .quadrupole 0.5 none⟩ ∈ foldedParts.document.elements := by
    simp [elements_foldedParts]
  have hD : ⟨"D", none, .drift 2⟩ ∈ foldedParts.document.elements := by
    simp [elements_foldedParts]
  have hCELL : ⟨"CELL", [.name "Q", .name "D"]⟩ ∈ foldedParts.document.lattices := by
    simp [lattices_foldedParts]
  have hcell := Unfolds.element hQ (.element hD .nil)
  rw [htree, ← (hiff _).1 (.lattice hCELL hcell (.group (.element hD (.group
    (.lattice hCELL hcell .nil) .nil)) .nil))]
  decide +kernel

end Document

end Beamline
