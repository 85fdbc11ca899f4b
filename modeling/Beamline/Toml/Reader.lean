import Beamline.Toml.Scanner

/-!
# Reading TOML

* `Toml.parse?` : the table that a text spells, if it keeps the rules of TOML 1.1.
-/

namespace Beamline.Toml

open Text Text.Scanner

/-- The table in the making, and the header that entries belong to. -/
structure State where
  entries : Tree.Entries
  header : List String

/-- A header with `n` brackets on each side. -/
def header (n : Nat) : Scanner (List String) := fun cs => do
  let brackets (c : Char) (cs : List Char) : Option (List Char) :=
    if cs.take n = List.replicate n c then some (cs.drop n) else none
  let cs ← brackets '[' cs
  let (p, cs) ← path (skipSpace cs)
  let cs ← brackets ']' (skipSpace cs)
  return (p, cs)

/-- Carries out the line that starts with `cs`: a header, an entry, or nothing. -/
def line (s : State) (cs : List Char) : Option (State × List Char) :=
  let cs := skipSpace cs
  let made (p : List String) (f : String → Tree.Entries → Option Tree.Entries) : Option State := do
    let key ← p.getLast?
    let entries ← Tree.change (f key) s.entries p.dropLast
    return ⟨entries, p⟩
  match cs with
  | '[' :: '[' :: _ => do
    let (p, cs) ← header 2 cs
    return (← made p Tree.openRow, cs)
  | '[' :: _ => do
    let (p, cs) ← header 1 cs
    return (← made p Tree.openTable, cs)
  | [] => some (s, [])
  | c :: _ =>
    if c = '#' || c = '\n' || c = '\r' then some (s, cs)
    else do
      let ((p, v), cs) ← entry (value (cs.length + 1)) cs
      let entries ← Tree.change (fun t => Tree.assign t p v) s.entries s.header
      return ({ s with entries }, cs)

/-- Carries out all lines, at most `fuel` of them. -/
def readLines : Nat → State → List Char → Option State
  | 0, _, _ => none
  | fuel + 1, s, cs => do
    let (s, cs) ← line s cs
    match skipComment (skipSpace cs) with
    | [] => return s
    | cs =>
      let (_, cs) ← newline cs
      readLines fuel s cs

/-- The table that a text spells. A byte order mark before it does not count. -/
def parse? (text : String) : Option (List (String × Value)) :=
  let cs :=
    match text.toList with
    | '\ufeff' :: cs => cs
    | cs => cs
  (readLines (cs.length + 1) ⟨[], []⟩ cs).map fun s => Tree.values s.entries

end Beamline.Toml
