import Beamline.Deck.Flaw
import Beamline.Deck.Syntax
import Beamline.Deck.Word

/-!
# The grammar of statements

Both dialects spell statements alike. An assignment is tried first, then a definition, then a
command; the first form that the clause starts with counts, and it has to be all of the clause.

* `expression`, `lineItems`, `statement` : the scanners, whose `fuel` is a bound on the characters
  that are left;
* `parse` : the statement that a clause spells.
-/

namespace Beamline.Deck

open Text Text.Scanner Word

namespace Grammar

/-! ## Expressions -/

/-- A name, or the call of a function. -/
def word (inner : Scanner Expr) : Scanner Expr := fun cs => do
  let (f, cs) ← name cs
  match between (mark '(') inner (mark ')') cs with
  | some (e, cs) => return (.call f e, cs)
  | none => return (.var f, cs)

/-- A number, an expression in brackets, a name or a call. -/
def atom (inner : Scanner Expr) : Scanner Expr :=
  spaced (orElse (fun cs => (magnitude cs).map fun (x, cs) => (.number x, cs))
    (orElse (between (mark '(') inner (mark ')')) (word inner)))

/-- The operator of powers, `^` or `**`. -/
def caret : Scanner Unit
  | '*' :: '*' :: cs => some ((), cs)
  | '^' :: cs => some ((), cs)
  | _ => none

/-- An operand behind `^`, perhaps with a minus sign. -/
def exponentOperand (inner : Scanner Expr) : Scanner Expr := fun cs => do
  let (_, cs) ← spaced caret cs
  let (minus, cs) := opt (mark '-') cs
  let (e, cs) ← atom inner cs
  return (if minus.isSome then .neg e else e, cs)

/-- One operand, or a chain of powers. -/
def power (inner : Scanner Expr) (fuel : Nat) : Scanner Expr := fun cs => do
  let (first, cs) ← atom inner cs
  let (rest, cs) := many (exponentOperand inner) fuel cs
  return (if rest.isEmpty then first else .power (first :: rest), cs)

/-- A plus sign or a minus sign. -/
def sumOp : Scanner Op
  | '+' :: cs => some (.add, cs)
  | '-' :: cs => some (.sub, cs)
  | _ => none

/-- `*` or `/`, but not the first half of `**`. -/
def productOp : Scanner Op
  | '*' :: '*' :: _ => none
  | '*' :: cs => some (.mul, cs)
  | '/' :: cs => some (.div, cs)
  | _ => none

/-- Any signs and a power; an odd number of minus signs makes it negative. -/
def signed (inner : Scanner Expr) (fuel : Nat) : Scanner Expr := fun cs => do
  let (signs, cs) := many (spaced sumOp) fuel cs
  let (e, cs) ← power inner fuel cs
  return (if signs.count .sub % 2 = 1 then .neg e else e, cs)

/-- An operator and its right operand. -/
def tail (op : Scanner Op) (operand : Scanner Expr) : Scanner (Op × Expr) := fun cs => do
  let (o, cs) ← spaced op cs
  let (e, cs) ← operand cs
  return ((o, e), cs)

/-- Operands joined by operators. -/
def chain (op : Scanner Op) (operand : Scanner Expr) (fuel : Nat) : Scanner Expr := fun cs => do
  let (first, cs) ← operand cs
  let (rest, cs) := many (tail op operand) fuel cs
  return (if rest.isEmpty then first else .chain first rest, cs)

/-- A sum of products of signed powers. -/
def expression : Nat → Scanner Expr
  | 0, _ => none
  | fuel + 1, cs =>
    chain sumOp (chain productOp (signed (expression fuel) fuel) fuel) fuel cs

/-! ## Lines -/

/-- How often an item is repeated, with the asterisk; a count is below `2 ^ 64`. -/
def repeatCount : Scanner Nat := fun cs => do
  let (ds, cs) ← spaced digits cs
  let n := Decimal.natOfDigits ds
  if n < 0x10000000000000000 then
    let (_, cs) ← mark '*' cs
    return (n, cs)
  else none

/-- An item of a line. -/
def lineItem (inner : Scanner (List LineItem)) : Scanner LineItem := fun cs =>
  let (count, cs) := opt repeatCount cs
  let (minus, cs) := opt (mark '-') cs
  let count := count.getD 1
  match between (mark '(') inner (mark ')') cs with
  | some (items, cs) => some (.group count minus.isSome items, cs)
  | none => (spaced name cs).map fun (n, cs) => (.name count minus.isSome n, cs)

/-- The items of a line, parted by commas. -/
def lineItems : Nat → Scanner (List LineItem)
  | 0, _ => none
  | fuel + 1, cs => sepBy1 (lineItem (lineItems fuel)) (mark ',') fuel cs

/-! ## Statements -/

/-- `=` or `:=` with the gaps around it. -/
def equals : Scanner Unit :=
  spaced (orElse (after (char ':') (char '=')) (char '='))

/-- A list of expressions in braces. -/
def array (fuel : Nat) : Scanner (List Expr) :=
  after (char '{') (before (sepBy (spaced (expression fuel)) (char ',') fuel) (mark '}'))

/-- The value of an attribute. -/
def literal (fuel : Nat) : Scanner Literal :=
  spaced (orElse (fun cs => (quoted cs).map fun (s, cs) => (.text s, cs))
    (orElse (fun cs => (array fuel cs).map fun (es, cs) => (.array es, cs))
      (fun cs => (expression fuel cs).map fun (e, cs) => (.expr e, cs))))

/-- A key and its value. -/
def setting (fuel : Nat) : Scanner (String × Literal) := fun cs => do
  let (key, cs) ← spaced name cs
  let (_, cs) ← equals cs
  let (v, cs) ← literal fuel cs
  return ((key, v), cs)

/-- Everything up to the next comma, in upper case and without the blanks around it. -/
def bareWord : Scanner String := fun cs =>
  let word := cs.takeWhile (· != ',')
  if word.isEmpty then none
  else some (String.ofList (upper (trim word)), cs.dropWhile (· != ','))

/-- An argument of a command. -/
def argument : Scanner Argument := fun cs => do
  let (key, cs) := opt (before (spaced name) equals) cs
  let (word, cs) ← spaced (orElse quoted bareWord) cs
  return (⟨key, word⟩, cs)

/-- An assignment to a variable. -/
def assignment (fuel : Nat) : Scanner Statement := fun cs => do
  let (n, cs) ← spaced name cs
  let (_, cs) ← equals cs
  let (e, cs) ← expression fuel cs
  return (.assign n e, cs)

/-- The definition of an element or of a line. -/
def definition (fuel : Nat) : Scanner Statement := fun cs => do
  let (label, cs) ← before (spaced name) (mark ':') cs
  let (keyword, cs) ← spaced name cs
  if keyword = "LINE" then
    let (items, cs) ← after equals (between (mark '(') (lineItems fuel) (mark ')')) cs
    return (.line label items, cs)
  else
    let (attributes, cs) := many (after (mark ',') (setting fuel)) fuel cs
    return (.element label keyword attributes, cs)

/-- A command with its arguments. -/
def command (fuel : Nat) : Scanner Statement := fun cs => do
  let (keyword, cs) ← spaced name cs
  let (arguments, cs) := many (after (mark ',') argument) fuel cs
  return (.command keyword arguments, cs)

/-- The statement that a text starts with. -/
def statement (fuel : Nat) : Scanner Statement :=
  orElse (assignment fuel) (orElse (definition fuel) (command fuel))

end Grammar

/-- The statement that a clause spells. -/
def parse (cs : List Char) : Except Flaw Statement :=
  match Grammar.statement (cs.length + 1) cs with
  | none => .error (.leftover cs)
  | some (s, rest) =>
    match skipGap rest with
    | [] => .ok s
    | rest => .error (.leftover rest)

end Beamline.Deck
