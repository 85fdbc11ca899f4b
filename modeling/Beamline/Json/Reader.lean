import Beamline.Json.Scalar

/-!
# Reading JSON

* `Json.value` : a value at the start of a text, containers nested at most `room` deep;
* `Json.parse` : the value that a whole text spells, or its first fault.

Of two members with one name the last value counts, where the first stood.
-/

namespace Beamline.Json

open Text

/-- Whether a list goes on after an item: `some` if the next item follows, `none` at the end. The
flaws are for the end of the text and for anything but a comma or `close`. -/
def separator (close : Char) (atEnd other : Flaw) (cs : List Char) : Outcome (Got Bool) :=
  match skipGap cs with
  | [] => .error (.before atEnd [])
  | c :: cs =>
    if c = close then .ok (false, cs)
    else if c = ',' then
      match skipGap cs with
      | [] => .error (.before .endInValue [])
      | d :: ds =>
        if d = close then .error (.next .trailingComma (d :: ds)) else .ok (true, d :: ds)
    else .error (.next other (c :: cs))

/-- The items behind the first, fewer than `bound` has characters. -/
def moreItems (item : List Char → Outcome (Got Json)) :
    (bound : List Char) → List Char → Outcome (Got (List Json))
  | [], cs => .error (.before .endInArray cs)
  | _ :: bound, cs => do
    let (more, cs) ← separator ']' .endInArray .noCommaOrBracket cs
    if !more then return ([], cs)
    let (v, cs) ← item cs
    let (vs, cs) ← moreItems item bound cs
    return (v :: vs, cs)

/-- The items of an array, its opening bracket already read. -/
def itemList (item : List Char → Outcome (Got Json)) (cs : List Char) : Outcome (Got (List Json)) :=
  match skipGap cs with
  | [] => .error (.before .endInArray [])
  | c :: rest =>
    if c = ']' then .ok ([], rest)
    else do
      let (v, cs) ← item (c :: rest)
      let (vs, cs) ← moreItems item cs cs
      return (v :: vs, cs)

/-- A member at the start of the text. -/
def member (item : List Char → Outcome (Got Json)) (cs : List Char) :
    Outcome (Got (String × Json)) :=
  match cs with
  | '"' :: cs => do
    let (key, cs) ← string cs
    match skipGap cs with
    | [] => .error (.before .endInObject [])
    | ':' :: cs =>
      let (v, cs) ← item cs
      return ((key, v), cs)
    | cs => .error (.next .noColon cs)
  | cs => .error (.next .keyNotText cs)

/-- The members behind the first, fewer than `bound` has characters. -/
def moreMembers (item : List Char → Outcome (Got Json)) :
    (bound : List Char) → List Char → Outcome (Got (List (String × Json)))
  | [], cs => .error (.before .endInObject cs)
  | _ :: bound, cs => do
    let (more, cs) ← separator '}' .endInObject .noCommaOrBrace cs
    if !more then return ([], cs)
    let (m, cs) ← member item cs
    let (ms, cs) ← moreMembers item bound cs
    return (m :: ms, cs)

/-- The members of an object in the order written, its opening brace already read. -/
def memberList (item : List Char → Outcome (Got Json)) (cs : List Char) :
    Outcome (Got (List (String × Json))) :=
  match skipGap cs with
  | [] => .error (.before .endInObject [])
  | c :: rest =>
    if c = '}' then .ok ([], rest)
    else do
      let (m, cs) ← member item (c :: rest)
      let (ms, cs) ← moreMembers item cs cs
      return (m :: ms, cs)

/-- The value at the start of a text; `room` bounds how deep arrays and objects nest. -/
def value (room : Nat) (cs : List Char) : Outcome (Got Json) :=
  match skipGap cs with
  | [] => .error (.before .endInValue [])
  | c :: rest =>
    if c = 'n' then word .null ['u', 'l', 'l'] rest
    else if c = 't' then word (.bool true) ['r', 'u', 'e'] rest
    else if c = 'f' then word (.bool false) ['a', 'l', 's', 'e'] rest
    else if c = '-' then number true rest
    else if c.isDigit then number false (c :: rest)
    else if c = '"' then do
      let (s, rest) ← string rest
      return (.str s, rest)
    else if c = '[' then
      match room with
      | 0 => .error (.next .tooDeep (c :: rest))
      | room + 1 => do
        let (vs, rest) ← itemList (value room) rest
        return (.arr vs, rest)
    else if c = '{' then
      match room with
      | 0 => .error (.next .tooDeep (c :: rest))
      | room + 1 => do
        let (ms, rest) ← memberList (value room) rest
        return (.obj (Table.ofList ms), rest)
    else .error (.next .noValue (c :: rest))

/-- How deep arrays and objects may nest in a text. -/
def maxDepth : Nat := 127

/-- The value that a text spells. -/
def parseChars (cs : List Char) : Except Fault Json :=
  match value maxDepth cs with
  | .error stop => .error (stop.inText cs)
  | .ok (v, rest) =>
    match skipGap rest with
    | [] => .ok v
    | rest => .error ((Stop.next .trailingText rest).inText cs)

/-- The value that a text spells. -/
def parse (text : String) : Except Fault Json :=
  parseChars text.toList

end Beamline.Json
