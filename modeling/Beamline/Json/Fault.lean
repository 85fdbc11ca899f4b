import Beamline.Text.Place

/-!
# What can be wrong with a JSON text

* `Json.Flaw` : the ways a text fails to be JSON, with their wording;
* `Json.Stop` : a flaw and where reading stopped, as the text that was left over;
* `Json.Fault` : a flaw and its place in the whole text.
-/

namespace Beamline.Json

/-- A way in which a text fails to be JSON. -/
inductive Flaw where
  | endInArray
  | endInObject
  | endInString
  | endInValue
  | noColon
  | noCommaOrBracket
  | noCommaOrBrace
  | badWord
  | noValue
  | badEscape
  | badNumber
  | hugeNumber
  | controlCharacter
  | keyNotText
  | loneSurrogate
  | halfPair
  | trailingComma
  | trailingText
  | tooDeep
  deriving DecidableEq, Repr

def Flaw.message : Flaw → String
  | .endInArray => "EOF while parsing a list"
  | .endInObject => "EOF while parsing an object"
  | .endInString => "EOF while parsing a string"
  | .endInValue => "EOF while parsing a value"
  | .noColon => "expected `:`"
  | .noCommaOrBracket => "expected `,` or `]`"
  | .noCommaOrBrace => "expected `,` or `\x7d`"
  | .badWord => "expected ident"
  | .noValue => "expected value"
  | .badEscape => "invalid escape"
  | .badNumber => "invalid number"
  | .hugeNumber => "number out of range"
  | .controlCharacter => "control character (\\u0000-\\u001F) found while parsing a string"
  | .keyNotText => "key must be a string"
  | .loneSurrogate => "lone leading surrogate in hex escape"
  | .halfPair => "unexpected end of hex escape"
  | .trailingComma => "trailing comma"
  | .trailingText => "trailing characters"
  | .tooDeep => "recursion limit exceeded"

/-- A flaw, with the text left over where it was met. The flaw lies `ahead` bytes into it. -/
structure Stop where
  flaw : Flaw
  rest : List Char
  ahead : Nat
  deriving DecidableEq

/-- A flaw just before `rest`. -/
def Stop.before (flaw : Flaw) (rest : List Char) : Stop :=
  ⟨flaw, rest, 0⟩

/-- A flaw at the first byte of `rest`, or at the end of the text. -/
def Stop.next (flaw : Flaw) (rest : List Char) : Stop :=
  ⟨flaw, rest, if rest.isEmpty then 0 else 1⟩

/-- A flaw and its place in the text. -/
structure Fault where
  flaw : Flaw
  place : Text.Place
  deriving DecidableEq

/-- Where a stop lies in the text that was read. -/
def Stop.inText (s : Stop) (text : List Char) : Fault :=
  ⟨s.flaw, Text.placeAt text (Text.byteCount text - Text.byteCount s.rest + s.ahead)⟩

def Fault.message (f : Fault) : String :=
  f.flaw.message ++ " at line " ++ toString f.place.line ++ " column " ++ toString f.place.column

end Beamline.Json
