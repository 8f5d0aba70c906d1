import Scim.Attribute.Lookup
import Scim.Filter.Evaluation
import Scim.Patch.Pointer
import Scim.Patch.ValuePath

/-!
Converting PATCH operations into edits. All pointers are resolved against the document before any
edit is applied. Removals of array elements are staged and come last, those of one array from its
end to its beginning, so that every pointer still means what it meant in the document.
-/
namespace Scim.Patch

inductive Action where
  | add (value : Json)
  | replace (value : Json)
  | remove (criteria : Option Json)
  deriving DecidableEq, Repr

/-- Only a removal does without a value. -/
def actionOf (operation : Operation) : Except PatchError Action :=
  match operation.op, operation.value with
  | .add, some value => .ok (.add value)
  | .replace, some value => .ok (.replace value)
  | .remove, criteria => .ok (.remove criteria)
  | op, none => .error (.missingValue op)

structure Removal where
  array : List String
  index : Nat
  deriving DecidableEq, Repr

/-- An edit whose pointer is still a list of tokens, or a removal to be made in the end. -/
inductive Step where
  | edit (op : PatchOp) (tokens : List String) (value : Option Json)
  | stage (removal : Removal)
  deriving DecidableEq, Repr

def indexToken (index : Nat) : String := String.ofList (Nat.toDigits 10 index)

/-- One edit for each field, under the key that the field has in the object there. A field without
one can only be added. -/
def fieldSteps (config : Config) (op : PatchOp) (base : List String)
    (existing : Option (List (String × Json))) (fields : List (String × Json)) : List Step :=
  fields.map fun (field, value) =>
    match existing.bind fun members => config.key? members field with
    | some key => .edit op (base ++ [key]) (some value)
    | none => .edit .add (base ++ [field]) (some value)

/-- Adds to the value at a pointer: elements to an array, fields to an object, and in any other
case the value takes the place. -/
def addSteps (config : Config) (tokens : List String) (target : Option Json) (value : Json) :
    List Step :=
  match target, value with
  | some (.arr _), .arr items => items.map fun item => .edit .add (tokens ++ ["-"]) (some item)
  | some (.arr _), value => [.edit .add (tokens ++ ["-"]) (some value)]
  | some (.obj existing), .obj fields => fieldSteps config .add tokens (some existing) fields
  | _, value => [.edit .add tokens (some value)]

/-- What is not there cannot be replaced and is added. -/
def replaceSteps (tokens : List String) (target : Option Json) (value : Json) : List Step :=
  [.edit (if target.isSome then .replace else .add) tokens (some value)]

/-- The filter that a field of a criterion stands for. A nested value has none, and neither has a
number out of range. -/
def fieldFilter? (field : String) (expected : Json) : Option Expression :=
  let path : AttributePath := ⟨none, [field]⟩
  match expected with
  | .null => some (.null path .eq)
  | .str text => some (.comparison path .eq (.text text))
  | .bool value => some (.comparison path .eq (.boolean value))
  | .num _ => expected.decimal?.map fun value => .comparison path .eq (.number value)
  | .arr _ => none
  | .obj _ => none

def fieldHolds (config : Config) (members : List (String × Json)) (field : String)
    (expected : Json) : Bool :=
  match fieldFilter? field expected with
  | some filter => config.holds filter (.obj members)
  | none =>
    match config.member? members field with
    | some (_, actual) => actual.same expected
    | none => false

/-- An element is what a criterion describes. An object with fields describes the objects that
have all of them, a number its value, and anything else itself. -/
def satisfies (config : Config) (element criterion : Json) : Bool :=
  match element, criterion with
  | .obj members, .obj fields =>
    !fields.isEmpty && fields.all fun (field, expected) => fieldHolds config members field expected
  | .num _, .num _ =>
    match element.decimal?, criterion.decimal? with
    | some actual, some expected => actual.order expected == .eq
    | _, _ => false
  | element, criterion => element.same criterion

def indicesWhere (test : Json → Bool) (items : List Json) : List Nat :=
  (items.zipIdx.filter fun (item, _) => test item).map Prod.snd

/-- An array with criteria loses the elements that satisfy one of them, and anything else goes as a
whole. -/
def removeSteps (config : Config) (tokens : List String) (target criteria : Option Json) :
    List Step :=
  match target, criteria with
  | none, _ => []
  | some (.arr items), some criteria =>
    (indicesWhere (fun item => criteria.elements.any (satisfies config item)) items).map
      fun index => .stage ⟨tokens, index⟩
  | some _, _ => [.edit .remove tokens none]

/-- An operation on the document itself. Only fields can be replaced there. -/
def rootSteps (config : Config) (document : Json) : Action → Except PatchError (List Step)
  | .add (.obj fields) => .ok (fieldSteps config .add [] document.members? fields)
  | .replace (.obj fields) => .ok (fieldSteps config .replace [] document.members? fields)
  | .add value => .ok [.edit .add [""] (some value)]
  | .replace _ => .error (.invalidRequest .replaceNeedsObject)
  | .remove _ => .error (.malformedPath "" .removeWithoutPath)

def targetSteps (config : Config) (tokens : List String) (target : Option Json) :
    Action → List Step
  | .add value => addSteps config tokens target value
  | .replace value => replaceSteps tokens target value
  | .remove criteria => removeSteps config tokens target criteria

/-- An operation on an attribute. The path of a core schema leads to the document itself. -/
def attributeSteps (config : Config) (document : Json) (path : AttributePath) (action : Action) :
    Except PatchError (List Step) :=
  match config.pointer document path with
  | [] => rootSteps config document action
  | token :: tokens =>
    .ok (targetSteps config (token :: tokens) (Pointer.lookup (token :: tokens) document) action)

/-- The values that a filter selects from the value at a pointer, with their indices: elements of
an array, or a single object. -/
def selected (config : Config) (filter : Expression) : Option Json → List (Option Nat × Json)
  | some (.arr items) =>
    (items.zipIdx.filter fun (item, _) => config.holds filter item).map fun (item, index) =>
      (some index, item)
  | some (.obj members) =>
    if config.holds filter (.obj members) then [(none, .obj members)] else []
  | _ => []

def elementTokens (tokens : List String) : Option Nat → List String
  | some index => tokens ++ [indexToken index]
  | none => tokens

/-- An operation on a selected value as a whole. Only fields can be added to it. -/
def elementSteps (config : Config) (tokens : List String) (index : Option Nat) (element : Json) :
    Action → List Step
  | .add (.obj fields) =>
    fieldSteps config .add (elementTokens tokens index) element.members? fields
  | .add _ => []
  | .replace value => [.edit .replace (elementTokens tokens index) (some value)]
  | .remove _ =>
    match index with
    | some index => [.stage ⟨tokens, index⟩]
    | none => [.edit .remove tokens none]

/-- An operation on a sub-attribute of a selected value. There criteria have no meaning. -/
def subSteps (config : Config) (tokens : List String) (element : Json) (sub : AttributePath)
    (action : Action) : List Step :=
  let inner := config.pointer element sub
  let target := Pointer.lookup inner element
  match action with
  | .add value => addSteps config (tokens ++ inner) target value
  | .replace value => replaceSteps (tokens ++ inner) target value
  | .remove _ => removeSteps config (tokens ++ inner) target none

def selectedSteps (config : Config) (tokens : List String) (sub : Option AttributePath)
    (action : Action) (selection : Option Nat × Json) : List Step :=
  match sub with
  | none => elementSteps config tokens selection.1 selection.2 action
  | some sub => subSteps config (elementTokens tokens selection.1) selection.2 sub action

def addsNoFields : Option AttributePath → Action → Bool
  | none, .add value => value.members?.isNone
  | _, _ => false

def filteredSteps (config : Config) (document : Json) (text : String) (path : ValuePath)
    (action : Action) : Except PatchError (List Step) :=
  match path.filter.check with
  | .error mismatch => .error (.filter mismatch)
  | .ok () =>
    let tokens := config.pointer document path.target
    let selection := selected config path.filter (Pointer.lookup tokens document)
    if addsNoFields path.sub action ∧ selection ≠ [] then
      .error (.malformedPath text .addNeedsObject)
    else .ok (selection.flatMap (selectedSteps config tokens path.sub action))

def operationSteps (config : Config) (document : Json) (operation : Operation) :
    Except PatchError (List Step) := do
  let action ← actionOf operation
  let text := operation.path.getD ""
  if text = "" then rootSteps config document action
  else match ← PatchPath.parse text with
    | .plain path => attributeSteps config document path action
    | .filtered path => filteredSteps config document text path action

/-- The steps of a batch. The first operation that cannot be converted fails the batch. -/
def batchSteps (config : Config) (document : Json) :
    List Operation → Except PatchError (List Step)
  | [] => .ok []
  | operation :: operations => do
    let steps ← operationSteps config document operation
    let rest ← batchSteps config document operations
    return steps ++ rest

/-- Staged removals are ordered by the text of the array's pointer and then by falling index. -/
def Removal.order (a b : Removal) : Ordering :=
  (Text.order (Pointer.text a.array).toList (Pointer.text b.array).toList).then
    (compare b.index a.index)

def Removal.insert (removal : Removal) : List Removal → List Removal
  | [] => [removal]
  | first :: rest =>
    match removal.order first with
    | .lt => removal :: first :: rest
    | .eq => first :: rest
    | .gt => first :: Removal.insert removal rest

def Removal.edit (removal : Removal) : Edit :=
  ⟨.remove, Pointer.text (removal.array ++ [indexToken removal.index]), none⟩

def staged (steps : List Step) : List Removal :=
  steps.foldl
    (fun found step =>
      match step with
      | .edit _ _ _ => found
      | .stage removal => removal.insert found)
    []

def immediate (steps : List Step) : List Edit :=
  steps.filterMap fun
    | .edit op tokens value => some ⟨op, Pointer.text tokens, value⟩
    | .stage _ => none

/-- A step replaces or removes an array or something that holds it. -/
def supersedes (array : List String) : Step → Bool
  | .edit .add _ _ => false
  | .edit _ tokens _ => tokens.isPrefixOf array
  | .stage _ => false

def stagedWhere (superseded : Bool) (steps : List Step) : List Removal :=
  (staged steps).filter fun removal => steps.any (supersedes removal.array) == superseded

/-- All edits of a batch: those made at once and then the staged removals, without those in an array
that another edit replaces or removes. -/
def assemble (steps : List Step) : List Edit :=
  immediate steps ++ (stagedWhere false steps).map Removal.edit

def convert (config : Config) (document : Json) (operations : List Operation) :
    Except PatchError (List Edit) :=
  (batchSteps config document operations).map assemble

end Scim.Patch
