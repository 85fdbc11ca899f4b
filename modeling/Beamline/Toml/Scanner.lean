import Beamline.Toml.Atom

/-!
# Values of TOML

* `Toml.entry` : the scanner of a key with its value;
* `Toml.value` : the scanner of values.
-/

namespace Beamline.Toml

open Text Text.Scanner

/-- A key with its value. -/
def entry (item : Scanner Value) : Scanner (List String × Value) := fun cs => do
  let (p, cs) ← path cs
  let (_, cs) ← char '=' (skipSpace cs)
  let (v, cs) ← item (skipSpace cs)
  return ((p, v), cs)

/-- What `item` reads, parted by commas, up to the bracket `closing`; the opening one has been read.
A comma may stand behind the last item, and lines may end anywhere between them. -/
def listed {α : Type} (item : Scanner α) (closing : Char) (fuel : Nat) :
    Scanner (List α) := fun cs =>
  let gap (cs : List Char) := skipLines (cs.length + 1) cs
  let comma : Scanner Unit := fun cs => (char ',' (gap cs)).map fun (_, cs) => ((), gap cs)
  let (as, cs) := (sepBy1 item comma fuel (gap cs)).getD ([], gap cs)
  let cs := if as.isEmpty then cs else (opt comma cs).2
  (char closing (gap cs)).map fun (_, cs) => (as, cs)

/-- The entries of a table in braces, the opening one already read. -/
def entries (item : Scanner Value) (fuel : Nat) : Scanner (List (String × Value)) := fun cs => do
  let (es, cs) ← listed (entry item) '}' fuel cs
  let table ← es.foldlM (fun t e => Tree.assign t e.1 e.2) []
  return (Tree.values table, cs)

/-- A value; `fuel` bounds how deep arrays and tables nest. -/
def value : Nat → Scanner Value
  | 0, _ => none
  | fuel + 1, cs =>
    match cs with
    | '[' :: cs => (listed (value fuel) ']' fuel cs).map fun (vs, cs) => (.array vs, cs)
    | '{' :: cs => (entries (value fuel) fuel cs).map fun (es, cs) => (.table es, cs)
    | cs => orElse (fun cs => (string cs).map fun (s, cs) => (.text (String.ofList s), cs)) atom cs

end Beamline.Toml
