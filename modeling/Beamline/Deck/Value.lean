import Beamline.Deck.Flaw
import Beamline.Deck.Syntax
import Beamline.Deck.Word

/-!
# Values of expressions

* `Expr.eval` : the value of an infix expression, with the powers of floats that are at hand
  (`Expr.evalBy`);
* `Postfix.run` : the value of a postfix expression, which may also store values in variables.
-/

namespace Beamline.Deck

open Text Text.Scanner Word

/-- The variables that have a value, the latest first. -/
abbrev Variables := List (String × Float)

/-- The constants that every deck knows. -/
def constants : Variables :=
  [("PI", 3.141592653589793), ("TWOPI", 6.283185307179586), ("E", 2.718281828459045)]

/-- The functions that every deck knows. -/
def function? : String → Option (Float → Float)
  | "SQRT" => some Float.sqrt
  | "SIN" => some Float.sin
  | "COS" => some Float.cos
  | "TAN" => some Float.tan
  | "ASIN" => some Float.asin
  | "ACOS" => some Float.acos
  | "ATAN" => some Float.atan
  | "EXP" => some Float.exp
  | "LOG" => some Float.log
  | "LN" => some Float.log
  | "LOG10" => some Float.log10
  | "ABS" => some Float.abs
  | _ => none

/-- The value of the function `name` at `x`. -/
def apply (name : String) (x : Float) : Except Flaw Float :=
  match function? name with
  | some f => .ok (f x)
  | none => .error (.unknownFunction name)

def Op.apply : Op → Float → Float → Float
  | add => (· + ·)
  | sub => (· - ·)
  | mul => (· * ·)
  | div => (· / ·)

/-! ## Infix -/

namespace Expr

section

variable (pow : Float → Float → Float) (vars : Variables)

mutual

/-- The value of an expression, with `pow` for the powers of floats. -/
def evalBy : Expr → Except Flaw Float
  | .number x => .ok x
  | .var name =>
    match vars.lookup name with
    | some x => .ok x
    | none => .error (.undefinedVariable name)
  | .call function argument => do
    let x ← evalBy argument
    apply function x
  | .neg e => do
    let x ← evalBy e
    return -x
  | .chain first rest => do
    let x ← evalBy first
    evalChain x rest
  | .power operands => evalPower operands

/-- The value of a chain whose operands so far have the value `x`. -/
def evalChain (x : Float) : List (Op × Expr) → Except Flaw Float
  | [] => .ok x
  | (op, e) :: rest => do
    let y ← evalBy e
    evalChain (op.apply x y) rest

/-- The value of a chain of powers, the last operand first. -/
def evalPower : List Expr → Except Flaw Float
  | [] => .ok 1
  | [e] => evalBy e
  | e :: rest => do
    let exponent ← evalPower rest
    let base ← evalBy e
    return pow base exponent

end

end

/-- The value of an expression. -/
def eval (vars : Variables) (e : Expr) : Except Flaw Float :=
  evalBy Float.pow vars e

end Expr

/-! ## Postfix -/

namespace Postfix

/-- A piece of a postfix expression. -/
inductive Token where
  | number (x : Float)
  /-- Stores the value on top in a variable. -/
  | store (name : String)
  | op (o : Op)
  | power
  /-- A variable, a function, or `CHS` for a change of sign. -/
  | word (name : String)
  deriving DecidableEq

/-- A number, perhaps with a minus sign. -/
def number : Scanner Token
  | '-' :: cs => (magnitude cs).map fun (x, cs) => (.number (-x), cs)
  | cs => (magnitude cs).map fun (x, cs) => (.number x, cs)

/-- The word `sto`, a gap and the name of a variable. -/
def store : Scanner Token := fun cs =>
  let rest := cs.drop 3
  if upper (cs.take 3) = ['S', 'T', 'O'] && (rest.head?.any isGap) then
    (name (skipGap rest)).map fun (n, cs) => (.store n, cs)
  else none

/-- An operator. -/
def operator : Scanner Token
  | '+' :: cs => some (.op .add, cs)
  | '-' :: cs => some (.op .sub, cs)
  | '*' :: cs => some (.op .mul, cs)
  | '/' :: cs => some (.op .div, cs)
  | '^' :: cs => some (.power, cs)
  | _ => none

/-- A word. -/
def word : Scanner Token := fun cs =>
  (name cs).map fun (n, cs) => (.word n, cs)

/-- The piece that a text starts with. -/
def token : Scanner Token :=
  orElse number (orElse store (orElse operator word))

/-- The pieces of a text, and what is left behind them. -/
def tokens (cs : List Char) : List Token × List Char :=
  many (fun cs => (token cs).map fun (t, cs) => (t, skipGap cs)) cs.length (skipGap cs)

/-- The values that are still to be used, the last on top, and the variables. -/
structure Machine where
  stack : List Float
  vars : Variables

/-- Carries out one piece of the expression `text`. -/
def Machine.step (text : String) (m : Machine) : Token → Except Flaw Machine
  | .number x => .ok { m with stack := x :: m.stack }
  | .store name =>
    match m.stack with
    | x :: _ => .ok { m with vars := (name, x) :: m.vars }
    | [] => .error (.tooFewOperands text)
  | .op o =>
    match m.stack with
    | b :: a :: rest => .ok { m with stack := o.apply a b :: rest }
    | _ => .error (.tooFewOperands text)
  | .power =>
    match m.stack with
    | b :: a :: rest => .ok { m with stack := a.pow b :: rest }
    | _ => .error (.tooFewOperands text)
  | .word name =>
    if name = "CHS" then
      match m.stack with
      | x :: rest => .ok { m with stack := -x :: rest }
      | [] => .error (.tooFewOperands text)
    else
      match m.vars.lookup name with
      | some x => .ok { m with stack := x :: m.stack }
      | none =>
        match m.stack with
        | [] => .error (.undefinedVariable name)
        | x :: rest => do
          let y ← apply name x
          return { m with stack := y :: rest }

/-- The value of the postfix expression that a text spells, and the variables after it. -/
def run (cs : List Char) (vars : Variables) : Except Flaw (Float × Variables) :=
  match tokens cs with
  | (_, c :: rest) => .error (.leftover (c :: rest))
  | (ts, []) => do
    let text := String.ofList (trim cs)
    let m ← ts.foldlM (Machine.step text) ⟨[], vars⟩
    match m.stack with
    | x :: _ => return (x, m.vars)
    | [] => throw (.emptyExpression text)

end Postfix

end Beamline.Deck
