import Beamline.Decimal.Basic
import Beamline.Table

/-!
# JSON values

* `Number` : whole numbers stay whole, all others are floats;
* `Json` : a value, its objects being tables (`Beamline.Table`);
* `Json.text?`, `Json.items?`, `Json.members?`, `Json.float?` : the content of a value of that
  form; `Json.get?`, `Json.at?` : the member of an object, the item of an array;
* `Json.agrees` : equality up to the order of members and the sign of zero.
-/

namespace Beamline

/-- A number of a JSON text. -/
inductive Number where
  | whole (n : Int)
  | float (x : Float)
  deriving DecidableEq

/-- The binary64 value of a number. -/
def Number.toFloat : Number → Float
  | .whole n => if n < 0 then -(Decimal.toFloat ⟨n.natAbs, 0⟩) else Decimal.toFloat ⟨n.natAbs, 0⟩
  | .float x => x

/-- Equality of numbers of one form; floats compare as numbers. -/
def Number.agrees : Number → Number → Bool
  | .whole m, .whole n => m == n
  | .float x, .float y => x == y
  | _, _ => false

/-- A JSON value. -/
inductive Json where
  | null
  | bool (b : Bool)
  | num (n : Number)
  | str (s : String)
  | arr (items : List Json)
  | obj (members : List (String × Json))

namespace Json

/-- A float as a value; there is no number for one that is not finite. -/
def ofFloat (x : Float) : Json :=
  if x.isFinite then .num (.float x) else .null

def text? : Json → Option String
  | .str s => some s
  | _ => none

def items? : Json → Option (List Json)
  | .arr items => some items
  | _ => none

def members? : Json → Option (List (String × Json))
  | .obj members => some members
  | _ => none

def float? : Json → Option Float
  | .num n => some n.toFloat
  | _ => none

def isText (j : Json) : Bool := j.text?.isSome

def isNumber (j : Json) : Bool := j.float?.isSome

def isObject (j : Json) : Bool := j.members?.isSome

/-- The member of an object. -/
def get? (j : Json) (key : String) : Option Json :=
  j.members?.bind (·.lookup key)

/-- The item of an array. -/
def at? (j : Json) (i : Nat) : Option Json :=
  j.items?.bind (·[i]?)

mutual

/-- Whether two values are equal up to the order of members and the sign of zero. -/
def agrees : Json → Json → Bool
  | .null, .null => true
  | .bool a, .bool b => a == b
  | .num m, .num n => m.agrees n
  | .str s, .str t => s == t
  | .arr xs, .arr ys => agreesItems xs ys
  | .obj xs, .obj ys => xs.length == ys.length && agreesMembers xs ys
  | _, _ => false

/-- Whether two lists agree item by item. -/
def agreesItems : List Json → List Json → Bool
  | [], [] => true
  | x :: xs, y :: ys => agrees x y && agreesItems xs ys
  | _, _ => false

/-- Whether every member of the first table agrees with the member of that name in the second. -/
def agreesMembers : List (String × Json) → List (String × Json) → Bool
  | [], _ => true
  | (key, x) :: xs, ys => (ys.lookup key).any (agrees x) && agreesMembers xs ys

end

end Json

end Beamline
