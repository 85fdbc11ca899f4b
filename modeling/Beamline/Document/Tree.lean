import Beamline.Document.Walk

/-!
# Trees

The nesting of a lattice drawn as a tree, in the course of a walk: one line for each item that the
walk comes to, its branch behind what its surroundings lead it with.

```text
RING
├── CELL
│   ├── Q1
│   └── D1
└── (inline)
    └── CELL
        ├── Q1
        └── D1
```

* `Drawing.step` : one step of a drawing, which goes where its walk goes (`Drawing.walk_step`);
* `Document.tree` : the drawing of a lattice.
-/

namespace Beamline

/-- A walk that is drawn: what stands before the lines of each list of items that the walk stands
in, the innermost first, and the lines so far. -/
structure Drawing where
  walk : Walk
  leads : List String
  text : String

namespace Drawing

/-- The branch of an item, the last of its list or not. -/
def branch (last : Bool) : String :=
  if last then "└── " else "├── "

/-- What stands before the lines inside an item, the last of its list or not. -/
def stem (last : Bool) : String :=
  if last then "    " else "│   "

/-- The line of an item, the last of its list or not. -/
def line (lead : String) (last : Bool) (label : String) : String :=
  lead ++ branch last ++ label ++ "\n"

/-- A drawing that enters the lattice `l`, its name on the first line. -/
def start (l : Lattice) : Drawing where
  walk := .start l
  leads := [""]
  text := l.name ++ "\n"

/-- What stands before the lines of the innermost list. -/
def lead (g : Drawing) : String :=
  g.leads.headD ""

/-- Draws an item of the innermost list, the last of the list or not. -/
def draw (g : Drawing) (last : Bool) (label : String) : Drawing :=
  { g with text := g.text ++ line g.lead last label }

/-- Goes with the walk out of the innermost list. -/
def outward (g : Drawing) (walk : Walk) : Drawing :=
  { g with walk, leads := g.leads.tail }

/-- Goes with the walk past an item. -/
def onward (g : Drawing) (walk : Walk) : Drawing :=
  { g with walk }

/-- Goes with the walk into an item of the innermost list, the last of the list or not. -/
def inward (g : Drawing) (last : Bool) (walk : Walk) : Drawing :=
  { g with walk, leads := (g.lead ++ stem last) :: g.leads }

/-- One step of a drawing; a drawing that is over stays as it is. -/
def step (d : Document) (g : Drawing) : Except Error Drawing :=
  match g.walk.frames with
  | [] => .ok g
  | ⟨[], _⟩ :: _ => .ok (g.outward g.walk.leave)
  | ⟨.group items :: rest, _⟩ :: _ =>
    .ok ((g.draw rest.isEmpty "(inline)").inward rest.isEmpty (g.walk.pass.descend items))
  | ⟨.name s :: rest, _⟩ :: _ =>
    match d.element? s with
    | some e => .ok ((g.draw rest.isEmpty s).onward (g.walk.pass.meet e))
    | none =>
      match d.lattice? s with
      | none => .error (.notFound .elementOrLattice s)
      | some l =>
        if g.walk.path.contains l.name then .error (Walk.cyclic (g.walk.cycle l.name))
        else .ok ((g.draw rest.isEmpty s).inward rest.isEmpty (g.walk.pass.enter l))

/-- A drawing goes where its walk goes. -/
theorem walk_step (d : Document) (g : Drawing) : (g.step d).map walk = g.walk.step d := by
  obtain ⟨⟨frames, path, found, rfl⟩, leads, text⟩ := g
  rcases frames with _ | ⟨⟨_ | ⟨s | items, rest⟩, lattice⟩, frames⟩
  · rfl
  · rfl
  · simp only [step, Walk.step]
    cases d.element? s with
    | some e => rfl
    | none =>
      cases d.lattice? s with
      | none => rfl
      | some l =>
        dsimp only
        split <;> rfl
  · rfl

/-- The lines of a drawing that is carried to its end. -/
def run (d : Document) (g : Drawing) : Except Error String :=
  if _hframes : g.walk.frames = [] then .ok g.text
  else
    match _hstep : g.step d with
    | .error e => .error e
    | .ok next => next.run d
termination_by g.walk.cost d
decreasing_by exact Walk.cost_step _hframes (by rw [← walk_step, _hstep]; rfl)

end Drawing

/-- The nesting of the lattice `name`. -/
def Document.tree (d : Document) (name : String) : Except Error String :=
  match d.lattice? name with
  | none => .error (.notFound .lattice name)
  | some l => (Drawing.start l).run d

end Beamline
