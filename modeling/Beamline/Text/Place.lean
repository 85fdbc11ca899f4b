import Beamline.Text.Blank

/-!
# Places in a text

A place is a line and a column, both as a reader counts them: the line is one more than the line
feeds before the place, the column is the number of bytes since the last of them.
-/

namespace Beamline.Text

structure Place where
  line : Nat
  column : Nat
  deriving DecidableEq, Repr

/-- The place after the first `offset` bytes of `cs`, given the place where `cs` starts. A
character that reaches past the offset counts with the bytes before it. -/
def Place.advance (p : Place) (offset : Nat) : List Char → Place
  | [] => p
  | c :: cs =>
    if offset < c.utf8Size then { p with column := p.column + offset }
    else if c = '\n' then advance ⟨p.line + 1, 0⟩ (offset - c.utf8Size) cs
    else advance ⟨p.line, p.column + c.utf8Size⟩ (offset - c.utf8Size) cs

/-- The place after the first `offset` bytes of a text. -/
def placeAt (cs : List Char) (offset : Nat) : Place :=
  Place.advance ⟨1, 0⟩ offset cs

end Beamline.Text
