import Beamline.Json.Basic

/-!
# Pointers into a value

A pointer is the list of keys and indices that lead to a place in a JSON value. In its text each of
them stands behind a slash; a slash in a key is written `~1` and a tilde `~0`.

* `Pointer.escape`, `Pointer.unescape` : one key and back;
* `Pointer.text`, `Pointer.parse?` : a pointer and back;
* `Pointer.resolve?` : the value that a pointer names.
-/

namespace Beamline

/-- The keys and indices that lead to a place, outermost first. -/
abbrev Pointer := List String

namespace Pointer

/-! ## Text -/

/-- The written form of the characters of a key. -/
def escapeChars (cs : List Char) : List Char :=
  cs.flatMap fun c => if c = '~' then ['~', '0'] else if c = '/' then ['~', '1'] else [c]

/-- The written form of a key. -/
def escape (key : String) : String :=
  String.ofList (escapeChars key.toList)

/-- The characters that a written key stands for. -/
def unescapeChars : List Char → List Char
  | [] => []
  | '~' :: '0' :: cs => '~' :: unescapeChars cs
  | '~' :: '1' :: cs => '/' :: unescapeChars cs
  | c :: cs => c :: unescapeChars cs

/-- The key that a written key stands for. -/
def unescape (key : String) : String :=
  String.ofList (unescapeChars key.toList)

/-- The written form of a pointer. -/
def text : Pointer → String
  | [] => ""
  | key :: keys => "/" ++ escape key ++ text keys

/-- The pieces of a text between slashes. -/
def segments : List Char → List (List Char)
  | [] => [[]]
  | c :: cs =>
    if c = '/' then [] :: segments cs
    else
      match segments cs with
      | [] => [[c]]
      | s :: rest => (c :: s) :: rest

/-- The pointer that a text spells. -/
def parse? (text : String) : Option Pointer :=
  match text.toList with
  | [] => some []
  | '/' :: cs => some ((segments cs).map fun s => String.ofList (unescapeChars s))
  | _ => none

/-! ## Places -/

/-- The key of the item with index `i`. -/
def index (i : Nat) : String :=
  String.ofList (Decimal.digitsOfNat i)

/-- The item that `key` names: an index without leading zeros. -/
def itemAt? (items : List Json) (key : String) : Option Json :=
  let cs := key.toList
  if !cs.isEmpty && cs.all Char.isDigit && (cs == ['0'] || cs.head? != some '0') then
    items[Decimal.natOfDigits cs]?
  else none

/-- The member or item of a value that `key` names. -/
def step? (v : Json) (key : String) : Option Json :=
  match v with
  | .obj members => members.lookup key
  | .arr items => itemAt? items key
  | _ => none

/-- The value that a pointer names in `v`; the empty pointer names `v`. -/
def resolve? (v : Json) (p : Pointer) : Option Json :=
  p.foldlM step? v

end Pointer

end Beamline
