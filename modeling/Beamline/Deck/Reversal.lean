import Beamline.Deck.Flaw
import Beamline.Deck.Syntax
import Beamline.Table

/-!
# Reversed lines

A reversed line gets a name of its own: the line `X_REV` holds the items of `X` from the last to
the first, the lines among them reversed in their turn. Elements read the same both ways.

* `Reversal.step`, `Reversal.run` : the lines that are still to be reversed, one at a time, until
  none is left;
* `arrange` : the names that the items of a line stand for, with the lines made on the way.
-/

namespace Beamline.Deck

/-- The lines of a deck, each with the names of its items. -/
abbrev Lines := List (String × List String)

/-- The name of the reversed form of a line. -/
def reversedName (name : String) : String :=
  name ++ "_REV"

/-- The reversed form of an item. -/
def reversedItem (lines : Lines) (item : String) : String :=
  if Table.has lines item then reversedName item else item

/-- Lines, and those of them that are still to be reversed, the next one first. -/
structure Reversal where
  lines : Lines
  pending : List String

namespace Reversal

/-- Reverses the next line, unless its reversed form is there already. The lines in it are to be
reversed before the others that are waiting. -/
def step (r : Reversal) : Reversal :=
  match r.pending with
  | [] => r
  | name :: rest =>
    if Table.has r.lines (reversedName name) then { r with pending := rest }
    else
      match r.lines.lookup name with
      | none => { r with pending := rest }
      | some items =>
        { lines := Table.put (reversedName name)
            (items.reverse.map (reversedItem r.lines)) r.lines
          pending := items.filter (Table.has r.lines) ++ rest }

/-- Steps until nothing is pending. Lines that name each other's reversed forms can ask for ever new
ones; the steps then never end, and the logical value of such a run is `none`. -/
def run (r : Reversal) : Option Lines :=
  match r.pending with
  | [] => some r.lines
  -- applied by a tactic: a recursive term would hold its place in the file
  | _ :: _ => by apply run; exact r.step
partial_fixpoint

end Reversal

/-- The reversed form of `name`, and the lines with all reversed lines that this takes. A run that
never ends gives no answer at all; the flaw is its logical value only. -/
def reverseOne (lines : Lines) (name : String) : Except Flaw (String × Lines) :=
  if Table.has lines name then
    match Reversal.run ⟨lines, [name]⟩ with
    | some lines => .ok (reversedName name, lines)
    | none => .error (.endlessReversal name)
  else .ok (name, lines)

/-- The reversed forms of names, in the order given. -/
def reverseAll (lines : Lines) : List String → Except Flaw (List String × Lines)
  | [] => .ok ([], lines)
  | name :: rest => do
    let (name, lines) ← reverseOne lines name
    let (names, lines) ← reverseAll lines rest
    return (name :: names, lines)

/-- The names repeated `count` times, reversed first if the item is. -/
def spread (lines : Lines) (count : Nat) (reversed : Bool) (names : List String) :
    Except Flaw (List String × Lines) := do
  let (names, lines) ← if reversed then reverseAll lines names.reverse else pure (names, lines)
  return ((List.replicate count names).flatten, lines)

mutual

/-- The names that an item stands for. -/
def arrangeItem (lines : Lines) : LineItem → Except Flaw (List String × Lines)
  | .name count reversed name => spread lines count reversed [name]
  | .group count reversed items => do
    let (names, lines) ← arrange lines items
    spread lines count reversed names

/-- The names that the items of a line stand for, with the lines made on the way. -/
def arrange (lines : Lines) : List LineItem → Except Flaw (List String × Lines)
  | [] => .ok ([], lines)
  | i :: rest => do
    let (names, lines) ← arrangeItem lines i
    let (behind, lines) ← arrange lines rest
    return (names ++ behind, lines)

end

end Beamline.Deck
