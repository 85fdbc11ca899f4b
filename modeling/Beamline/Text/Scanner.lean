import Beamline.Text.Blank

/-!
# Scanners

A scanner reads something at the start of a text and returns it with the rest, or fails. A scanner
that fails has read nothing.

* `Scanner.char`, `mark`, `digits` : characters and digits;
* `Scanner.spaced`, `many`, `opt`, `orElse`, `after`, `before`, `between`, `sepBy`, `sepBy1` :
  scanners made from others.
-/

namespace Beamline.Text

/-- Reads something at the start of a text, or fails. -/
abbrev Scanner (α : Type) := List Char → Option (α × List Char)

namespace Scanner

variable {α β : Type}

/-- The character `c`. -/
def char (c : Char) : Scanner Unit
  | [] => none
  | d :: cs => if d = c then some ((), cs) else none

/-- What `p` reads, with the gaps around it. -/
def spaced (p : Scanner α) : Scanner α := fun cs =>
  (p (skipGap cs)).map fun (a, cs) => (a, skipGap cs)

/-- The character `c` with the gaps around it. -/
def mark (c : Char) : Scanner Unit :=
  spaced (char c)

/-- What `p` reads, or else what `q` reads. -/
def orElse (p q : Scanner α) : Scanner α := fun cs =>
  match p cs with
  | some r => some r
  | none => q cs

/-- What `p` reads, if it reads anything. -/
def opt (p : Scanner α) (cs : List Char) : Option α × List Char :=
  match p cs with
  | some (a, cs) => (some a, cs)
  | none => (none, cs)

/-- What `p` reads again and again, at most `fuel` times. -/
def many (p : Scanner α) : Nat → List Char → List α × List Char
  | 0, cs => ([], cs)
  | fuel + 1, cs =>
    match p cs with
    | none => ([], cs)
    | some (a, cs) =>
      let (as, cs) := many p fuel cs
      (a :: as, cs)

/-- What `q` reads behind what `p` reads. -/
def after (p : Scanner β) (q : Scanner α) : Scanner α := fun cs => do
  let (_, cs) ← p cs
  q cs

/-- What `p` reads before what `q` reads. -/
def before (p : Scanner α) (q : Scanner β) : Scanner α := fun cs => do
  let (a, cs) ← p cs
  let (_, cs) ← q cs
  return (a, cs)

/-- What `p` reads between `opening` and `closing`. -/
def between (opening : Scanner β) (p : Scanner α) (closing : Scanner β) : Scanner α :=
  after opening (before p closing)

/-- One or more of what `p` reads, parted by what `sep` reads. -/
def sepBy1 (p : Scanner α) (sep : Scanner β) (fuel : Nat) : Scanner (List α) := fun cs => do
  let (a, cs) ← p cs
  let (as, cs) := many (after sep p) fuel cs
  return (a :: as, cs)

/-- Any number of what `p` reads, parted by what `sep` reads. -/
def sepBy (p : Scanner α) (sep : Scanner β) (fuel : Nat) : Scanner (List α) := fun cs =>
  match sepBy1 p sep fuel cs with
  | some r => some r
  | none => some ([], cs)

/-- One or more digits. -/
def digits : Scanner (List Char) := fun cs =>
  let ds := cs.takeWhile Char.isDigit
  if ds.isEmpty then none else some (ds, cs.dropWhile Char.isDigit)

end Scanner

end Beamline.Text
