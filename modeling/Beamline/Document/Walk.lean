import Beamline.Document.Basic
import Beamline.Error
import Beamline.Validation.Finding

/-!
# Walks through lattices

A lattice is walked with a stack of the lists of items that the walk stands in, so that nesting is
not limited by the depth of calls. The walk keeps the path of the lattices that it stands in and
does not enter one of them again.

* `Walk.step` : one step of a walk, from item to item, into groups and lattices and out of them;
* `Walk.cost_step` : each step leaves less of a walk, whether or not lattices contain themselves;
* `Walk.run` : the elements that a walk meets up to its end, or the error that it ends with.
-/

namespace Beamline

/-- A list of items in the course of a walk: those that are left, and the lattice whose items they
are, unless they are a group. -/
structure Frame where
  items : List Item
  lattice : Option String

/-- The lattices among the lists of items that a walk stands in. -/
def Frame.names (frames : List Frame) : List String :=
  frames.filterMap Frame.lattice

/-- A walk: the lists of items that it stands in and the lattices among them, the innermost first,
and the elements met so far, the last first. -/
structure Walk where
  frames : List Frame
  path : List String
  found : List Element
  path_eq : path = Frame.names frames := by rfl

namespace Walk

/-- A walk that enters the lattice `l`. -/
def start (l : Lattice) : Walk where
  frames := [⟨l.items, some l.name⟩]
  path := [l.name]
  found := []

/-- The lattices from `name` on to the end of the path, and `name` again. -/
def cycle (w : Walk) (name : String) : List String :=
  name :: (w.path.takeWhile (· != name)).reverse ++ [name]

/-- The error for a walk along a cycle. -/
def cyclic (cycle : List String) : Error :=
  .cycle [cycle] [Finding.report false ⟨["lattices", cycle.headD ""], .cyclic cycle⟩]

/-- Leaves the innermost list of items, with the lattice whose items they are. -/
def leave (w : Walk) : Walk where
  frames := w.frames.tail
  path := if (w.frames.head?.bind Frame.lattice).isSome then w.path.tail else w.path
  found := w.found
  path_eq := by
    rw [w.path_eq]
    cases w.frames with
    | nil => rfl
    | cons f frames => cases h : f.lattice <;> simp [Frame.names, h]

/-- Goes on to the items behind the first of the innermost list. -/
def pass (w : Walk) : Walk where
  frames := w.frames.modifyHead fun f => { f with items := f.items.tail }
  path := w.path
  found := w.found
  path_eq := by
    rw [w.path_eq]
    cases w.frames <;> rfl

/-- Goes into a group. -/
def descend (w : Walk) (items : List Item) : Walk where
  frames := ⟨items, none⟩ :: w.frames
  path := w.path
  found := w.found
  path_eq := w.path_eq

/-- Goes into the lattice `l`. -/
def enter (w : Walk) (l : Lattice) : Walk where
  frames := ⟨l.items, some l.name⟩ :: w.frames
  path := l.name :: w.path
  found := w.found
  path_eq := by
    rw [w.path_eq]
    rfl

/-- Meets an element. -/
def meet (w : Walk) (e : Element) : Walk :=
  { w with found := e :: w.found }

/-- One step of a walk; a walk that is over stays as it is. -/
def step (d : Document) (w : Walk) : Except Error Walk :=
  match w.frames with
  | [] => .ok w
  | ⟨[], _⟩ :: _ => .ok w.leave
  | ⟨.group items :: _, _⟩ :: _ => .ok (w.pass.descend items)
  | ⟨.name s :: _, _⟩ :: _ =>
    match d.element? s with
    | some e => .ok (w.pass.meet e)
    | none =>
      match d.lattice? s with
      | none => .error (.notFound .elementOrLattice s)
      | some l =>
        if w.path.contains l.name then .error (cyclic (w.cycle l.name))
        else .ok (w.pass.enter l)

/-! ## The end of a walk -/

mutual

/-- What an item can cost, if the items of a lattice cost `inside`. -/
def itemCost (d : Document) (inside : Lattice → Nat) : Item → Nat
  | .name s => 1 + ((d.lattice? s).map inside).getD 0
  | .group items => 2 + itemsCost d inside items

def itemsCost (d : Document) (inside : Lattice → Nat) : List Item → Nat
  | [] => 0
  | i :: rest => itemCost d inside i + itemsCost d inside rest

end

/-- What the items of a lattice can cost, if `room` more lattices can be entered. -/
def latticeCost (d : Document) : (room : Nat) → Lattice → Nat
  | 0, _ => 0
  | room + 1, l => 1 + itemsCost d (latticeCost d room) l.items

/-- The number of the lattices that are not on a path. -/
def room (d : Document) (path : List String) : Nat :=
  (d.lattices.filter fun l => !path.contains l.name).length

/-- What is left of a walk can cost no more than this. -/
def framesCost (d : Document) : List Frame → Nat
  | [] => 0
  | f :: frames =>
    1 + itemsCost d (latticeCost d (room d (Frame.names (f :: frames)))) f.items +
      framesCost d frames

def cost (d : Document) (w : Walk) : Nat :=
  framesCost d w.frames

mutual

theorem itemCost_mono {d : Document} {f g : Lattice → Nat} (h : ∀ l, f l ≤ g l) :
    ∀ i : Item, itemCost d f i ≤ itemCost d g i
  | .name s => by
    unfold itemCost
    cases d.lattice? s with
    | none => exact Nat.le_refl _
    | some l => exact Nat.add_le_add_left (h l) 1
  | .group items => by
    unfold itemCost
    exact Nat.add_le_add_left (itemsCost_mono h items) 2

theorem itemsCost_mono {d : Document} {f g : Lattice → Nat} (h : ∀ l, f l ≤ g l) :
    ∀ items : List Item, itemsCost d f items ≤ itemsCost d g items
  | [] => Nat.le_refl _
  | i :: rest => by
    unfold itemsCost
    exact Nat.add_le_add (itemCost_mono h i) (itemsCost_mono h rest)

end

theorem latticeCost_succ (d : Document) (n : Nat) :
    ∀ l, latticeCost d n l ≤ latticeCost d (n + 1) l := by
  induction n with
  | zero => exact fun l => Nat.zero_le _
  | succ n ih => exact fun l => Nat.add_le_add_left (itemsCost_mono ih l.items) 1

theorem latticeCost_mono (d : Document) {m n : Nat} (h : m ≤ n) (l : Lattice) :
    latticeCost d m l ≤ latticeCost d n l := by
  induction h with
  | refl => exact Nat.le_refl _
  | step _ ih => exact Nat.le_trans ih (latticeCost_succ d _ l)

/-- A path that goes on into a lattice leaves less room. -/
theorem room_cons_lt {d : Document} {path : List String} {l : Lattice} (hl : l ∈ d.lattices)
    (hfresh : path.contains l.name = false) : room d (l.name :: path) < room d path := by
  have hfilter : d.lattices.filter (fun l' => !(l.name :: path).contains l'.name) =
      (d.lattices.filter fun l' => !path.contains l'.name).filter fun l' => l'.name != l.name := by
    rw [List.filter_filter]
    congr 1
    funext l'
    rw [List.contains_cons, Bool.not_or]
    rfl
  unfold room
  rw [hfilter, List.length_filter_lt_length_iff_exists]
  exact ⟨l, List.mem_filter.2 ⟨hl, by rw [hfresh]; rfl⟩, by simp⟩

/-- A step of a walk that is not over leaves less of it. -/
theorem cost_step {d : Document} {w w' : Walk} (hframes : w.frames ≠ [])
    (h : w.step d = .ok w') : w'.cost d < w.cost d := by
  obtain ⟨frames, path, found, rfl⟩ := w
  unfold step at h
  unfold cost
  dsimp only at h hframes ⊢
  split at h
  · exact absurd rfl hframes
  · cases h
    simp only [leave, framesCost, List.tail_cons]
    omega
  · rename_i items rest lattice frames
    cases h
    simp only [descend, pass, List.modifyHead_cons, List.tail_cons, framesCost, itemsCost,
      itemCost, Frame.names, List.filterMap_cons]
    omega
  · rename_i s rest lattice frames
    split at h
    · cases h
      simp only [meet, pass, List.modifyHead_cons, List.tail_cons, framesCost, itemsCost,
        itemCost, Frame.names, List.filterMap_cons]
      omega
    · split at h
      · cases h
      · rename_i l hl
        split at h
        · cases h
        · rename_i hfresh
          cases h
          have hroom := room_cons_lt (List.mem_of_find?_eq_some hl) (Bool.not_eq_true _ ▸ hfresh)
          have hcost := latticeCost_mono d hroom l
          simp only [enter, pass, List.modifyHead_cons, List.tail_cons, framesCost, itemsCost,
            itemCost, Frame.names, List.filterMap_cons, hl, Option.map_some, Option.getD_some,
            latticeCost] at hcost ⊢
          omega

/-- The elements that a walk meets, in their order. -/
def run (d : Document) (w : Walk) : Except Error (List Element) :=
  if _hframes : w.frames = [] then .ok w.found.reverse
  else
    match _hstep : w.step d with
    | .error e => .error e
    | .ok next => next.run d
termination_by w.cost d
decreasing_by exact cost_step _hframes _hstep

end Walk

end Beamline
