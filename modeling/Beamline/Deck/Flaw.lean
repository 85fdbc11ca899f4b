import Beamline.Decimal.Style
import Beamline.Element.Kind
import Beamline.Text.Blank

/-!
# What can be wrong with a deck

* `Deck.Flaw` : the ways in which a clause cannot be read or carried out, with their wording;
* `Flaw.leftover` : the complaint about text that no statement takes;
* `Deck.Obstacle` : the ways in which a document cannot be written as a deck.
-/

namespace Beamline.Deck

/-- A way in which a clause cannot be read or carried out. -/
inductive Flaw where
  | unexpectedEnd
  | unexpectedInput (snippet : String)
  | tooDeep (limit : Nat)
  | undefinedVariable (name : String)
  | unknownFunction (name : String)
  | tooFewOperands (expression : String)
  | emptyExpression (expression : String)
  | textForNumber (text : String)
  | arrayForNumber
  | notFinite (x : Float)
  | orderNotWhole (x : Float)
  | sequence
  /-- The value of a reversal whose steps never end. No computation comes back with it. -/
  | endlessReversal (name : String)
  | badParameter (element : String) (flaw : Parameter.Flaw)
  deriving DecidableEq

/-- A float with all its places. -/
def plain (x : Float) : String :=
  String.ofList (Decimal.Style.plain.write x)

def Flaw.message : Flaw → String
  | .unexpectedEnd => "unexpected end of statement"
  | .unexpectedInput snippet => s!"unexpected input at '{snippet}'"
  | .tooDeep limit => s!"brackets nested deeper than {limit} levels"
  | .undefinedVariable name => s!"undefined variable '{name}'"
  | .unknownFunction name => s!"unknown function '{name}'"
  | .tooFewOperands expression => s!"not enough operands in '{expression}'"
  | .emptyExpression expression => s!"empty expression '{expression}'"
  | .textForNumber text => s!"expected a number, found \"{text}\""
  | .arrayForNumber => "expected a number, found an array"
  | .notFinite x => "value " ++ plain x ++ " is not a finite number"
  | .orderNotWhole x => "ORDER must be a whole number, found " ++ plain x
  | .sequence => "SEQUENCE blocks are not supported, define beamlines with LINE"
  | .endlessReversal name => s!"reversing line '{name}' does not end"
  | .badParameter element flaw => "element '" ++ element ++ "': " ++ flaw.message

/-- How much of the text left over a complaint shows. -/
def snippetLength : Nat := 24

/-- The complaint about a text that was left over. -/
def Flaw.leftover (cs : List Char) : Flaw :=
  let snippet := cs.take snippetLength
  if (Text.trim snippet).isEmpty then .unexpectedEnd
  else .unexpectedInput (String.ofList snippet)

/-- Why a document cannot be written in a dialect. -/
inductive Obstacle where
  | noRoot
  | mixedMultipole (element : String)
  | noAttribute (element : String) (p : String)
  deriving DecidableEq, Repr

def Obstacle.message : Obstacle → String
  | noRoot => "document has no root lattice"
  | mixedMultipole element => s!"element '{element}': multipole has more than one non-zero order"
  | noAttribute element p => s!"element '{element}': no attribute for '{p}'"

end Beamline.Deck
