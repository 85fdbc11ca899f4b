import Beamline.Validation.Finding

/-!
# The entries of elements

An element is a pair of a kind and an object of parameters. `elementFindings` holds one entry
against the catalogue of kinds: the required parameters of its kind must be there, and every
parameter must be known, of its form, and not negative where it may not be.
-/

namespace Beamline.Validation

/-- What is wrong with one parameter of an element of kind `k`. -/
def parameterComplaint? (k : Kind) (key : String) (v : Json) : Option Complaint :=
  match k.parameter? key with
  | none => some (.unknownParameter key k)
  | some p =>
    if !p.form.fits v then some (.wrongForm key p.form)
    else if p.nonNegative && v.float?.any (· < 0) then some (.negative key)
    else none

/-- What is wrong with the parameters of an element of kind `k`, which stand at `place`. -/
def parameterFindings (place : Pointer) (k : Kind) (params : List (String × Json)) :
    List Finding :=
  (k.required.filter fun p => !Table.has params p.name).map
      (fun p => ⟨place, .missingParameter p k⟩) ++
    params.filterMap fun (key, v) =>
      (parameterComplaint? k key v).map fun c => ⟨place ++ [key], c⟩

/-- The kind that the first entry of an element names. -/
def kindOf (tag : Json) : Except Complaint Kind :=
  match tag.text? with
  | none => .error .kindNotText
  | some tag =>
    match Kind.ofTag? tag with
    | none => .error (.unknownKind tag)
    | some k => .ok k

/-- What is wrong with the pair of an element, which stands at `place`. Parameters of an unknown
kind are not looked at. -/
def pairFindings (place : Pointer) (tag params : Json) : List Finding :=
  let kind := kindOf tag
  let tagFindings : List Finding :=
    match kind with
    | .ok _ => []
    | .error c => [⟨place ++ ["0"], c⟩]
  let inner := place ++ ["1"]
  let paramFindings : List Finding :=
    match params.members?, kind with
    | none, _ => [⟨inner, .parametersNotObject⟩]
    | some _, .error _ => []
    | some params, .ok k => parameterFindings inner k params
  tagFindings ++ paramFindings

/-- What is wrong with the entry of the element `name`. -/
def elementFindings (name : String) (entry : Json) : List Finding :=
  let place := ["elements", name]
  let nameFindings : List Finding := if name.isEmpty then [⟨place, .namelessElement⟩] else []
  let entryFindings : List Finding :=
    match entry.items? with
    | some [tag, params] => pairFindings place tag params
    | _ => [⟨place, .notPair name⟩]
  nameFindings ++ entryFindings

end Beamline.Validation
