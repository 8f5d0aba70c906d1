import Scim.Patch.Fault
import Scim.Patch.Pointer

/-!
Applying edits to a document. Adding creates the objects missing on the way, and an object added at
the root is merged into the document. A list of edits is applied as a whole or not at all.
-/
namespace Scim.Edit

/-- The index below a bound that a token spells. A plus sign may stand in front of it. -/
def index (token : String) (bound : Nat) : Except EditFault Nat :=
  let cs := token.toList
  let digits := if cs.head? = some '+' then cs.drop 1 else cs
  let plain := cs = ['0'] ∨ cs.head? ≠ some '0'
  let value := Nat.ofDigitChars 10 digits 0
  if plain ∧ digits ≠ [] ∧ digits.all Char.isDigit ∧ value < bound then .ok value
  else .error (.invalidIndex token)

def descend (token : String) (change : Json → Except EditFault Json) :
    Json → Except EditFault Json
  | .obj members =>
    match Members.find? token members with
    | none => .error .missingMember
    | some child => (change child).map fun child => .obj (Members.set token child members)
  | .arr items => do
    let position ← index token items.length
    let child ← change (items.getD position .null)
    return .arr (items.set position child)
  | _ => .error .throughScalar

def update (change : Json → Except EditFault Json) (tokens : List String) :
    Json → Except EditFault Json :=
  tokens.foldr descend change

def removeChild (token : String) : Json → Except EditFault Json
  | .obj members =>
    match Members.find? token members with
    | none => .error .missingMember
    | some _ => .ok (.obj (Members.erase token members))
  | .arr items => (index token items.length).map fun position => .arr (items.eraseIdx position)
  | _ => .error .scalarParent

def remove (tokens : List String) (document : Json) : Except EditFault Json :=
  match tokens.getLast? with
  | none => .error .rootRemoval
  | some last => update (removeChild last) tokens.dropLast document

def replace (tokens : List String) (value document : Json) : Except EditFault Json :=
  update (fun _ => .ok value) tokens document

/-- Sets a member, or puts an element in front of the one at an index or at the end. -/
def addChild (token : String) (value : Json) : Json → Except EditFault Json
  | .obj members => .ok (.obj (Members.set token value members))
  | .arr items =>
    if token = "-" then .ok (.arr (items ++ [value]))
    else (index token (items.length + 1)).map fun position => .arr (items.insertIdx position value)
  | _ => .error .scalarParent

/-- Adds below a token and the tokens after it. A missing member on the way becomes an object. -/
def addBelow (value : Json) : String → List String → Json → Except EditFault Json
  | last, [], document => addChild last value document
  | token, next :: rest, .obj members =>
    (addBelow value next rest ((Members.find? token members).getD (.obj []))).map fun child =>
      .obj (Members.set token child members)
  | token, next :: rest, .arr items => do
    let position ← index token items.length
    let child ← addBelow value next rest (items.getD position .null)
    return .arr (items.set position child)
  | _, _ :: _, _ => .error .scalarParent

/-- At the root an object is merged into an object; anything else replaces the document. -/
def addRoot : Json → Json → Json
  | .obj fields, .obj members => .obj (Members.merge members fields)
  | value, _ => value

def add (tokens : List String) (value document : Json) : Except EditFault Json :=
  match tokens with
  | [] => .ok (addRoot value document)
  | token :: rest => addBelow value token rest document

def located (edit : Edit) (result : Except EditFault Json) : Except PatchError Json :=
  match result with
  | .ok document => .ok document
  | .error fault => .error (.application edit.pointer fault)

/-- The document after one edit. A replacement looks for its place before its value. -/
def apply (edit : Edit) (document : Json) : Except PatchError Json :=
  match Pointer.parse edit.pointer with
  | none => .error (.application edit.pointer .noLeadingSlash)
  | some tokens =>
    match edit.op, edit.value with
    | .remove, _ => edit.located (remove tokens document)
    | .add, some value => edit.located (add tokens value document)
    | .add, none => .error (.missingValue .add)
    | .replace, some value => edit.located (replace tokens value document)
    | .replace, none => do
      let _ ← edit.located (replace tokens .null document)
      throw (.missingValue .replace)

def applyAll (edits : List Edit) (document : Json) : Except PatchError Json :=
  edits.foldlM (fun document edit => edit.apply document) document

end Scim.Edit
