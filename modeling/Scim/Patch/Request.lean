import Scim.Json.Source
import Scim.Patch.Fault

/-!
PATCH requests as JSON. Members of a record may come in any order, unknown ones are ignored, and a
record may be written as an array of its fields in order. Of several faults the first one in the
text counts.
-/
namespace Scim

structure Request where
  schemas : List String
  operations : List Operation
  deriving DecidableEq, Repr

namespace Json

def nestingLimit : Nat := 127

/-- The containers around the value of an operation in a request. -/
def operationDepth : Nat := 3

namespace Source

mutual

/-- A tree without a fault. Escapes that name no character do no harm in what is ignored. -/
def intact : Source → Bool
  | broken => false
  | arr items => intactItems items
  | obj members => intactMembers members
  | _ => true

def intactItems : List Source → Bool
  | [] => true
  | item :: rest => intact item && intactItems rest

def intactMembers : List (Option String × Source) → Bool
  | [] => true
  | (_, member) :: rest => intact member && intactMembers rest

end

def ignore (source : Source) : Except DecodeFault Unit :=
  if source.intact then .ok () else .error .malformed

def decodeString : Source → Except DecodeFault String
  | str (some text) => .ok text
  | _ => .error .malformed

/-- Null stands for an absent value. -/
def decodeOption {α : Type} (decode : Source → Except DecodeFault α) :
    Source → Except DecodeFault (Option α)
  | null => .ok none
  | source => (decode source).map some

def decodeValue (limit : Option Nat) (source : Source) : Except DecodeFault Json :=
  match source.value? limit with
  | some value => .ok value
  | none => .error .malformed

def decodeOp (source : Source) : Except DecodeFault PatchOp := do
  let name ← source.decodeString
  match PatchOp.ofName? name with
  | some op => return op
  | none => throw (.unsupportedOperation name)

def decodeList {α : Type} (decode : Source → Except DecodeFault α) :
    Source → Except DecodeFault (List α)
  | arr items => items.mapM decode
  | _ => .error .malformed

def once {α : Type} (name : String) (before : Option α) (decoded : Except DecodeFault α) :
    Except DecodeFault (Option α) :=
  match before with
  | some _ => .error (.duplicateField name)
  | none => decoded.map some

/-- The fields of an operation or an edit that have been read. A path or value that was null has
been read as absent. -/
structure Draft where
  op : Option PatchOp := none
  path : Option (Option String) := none
  value : Option (Option Json) := none

def Draft.addMember (decodePath : Source → Except DecodeFault (Option String))
    (limit : Option Nat) (draft : Draft) : Option String × Source → Except DecodeFault Draft
  | (none, _) => .error .malformed
  | (some name, source) =>
    if name = "op" then do
      let op ← once name draft.op source.decodeOp
      return { draft with op }
    else if name = "path" then do
      let path ← once name draft.path (decodePath source)
      return { draft with path }
    else if name = "value" then do
      let value ← once name draft.value (decodeOption (decodeValue limit) source)
      return { draft with value }
    else do
      source.ignore
      return draft

/-- Reads an operation or an edit. As an array it needs its first fields. -/
def decodeDraft (decodePath : Source → Except DecodeFault (Option String)) (needed : Nat)
    (limit : Option Nat) : Source → Except DecodeFault Draft
  | obj members => members.foldlM (Draft.addMember decodePath limit) {}
  | arr items => do
    let fields := (["op", "path", "value"].map some).zip items
    let draft ← fields.foldlM (Draft.addMember decodePath limit) {}
    if needed ≤ items.length ∧ items.length ≤ 3 then return draft else throw .malformed
  | _ => .error .malformed

def required {α : Type} (name : String) : Option α → Except DecodeFault α
  | some value => .ok value
  | none => .error (.missingField name)

def decodeOperation (limit : Option Nat) (source : Source) : Except DecodeFault Operation := do
  let draft ← source.decodeDraft (decodeOption decodeString) 1 limit
  let op ← required "op" draft.op
  return ⟨op, draft.path.join, draft.value.join⟩

def decodeEdit (limit : Option Nat) (source : Source) : Except DecodeFault Edit := do
  let draft ← source.decodeDraft (fun source => source.decodeString.map some) 2 limit
  let op ← required "op" draft.op
  let pointer ← required "path" draft.path.join
  return ⟨op, pointer, draft.value.join⟩

structure RequestDraft where
  schemas : Option (List String) := none
  operations : Option (List Operation) := none

def RequestDraft.addMember (limit : Option Nat) (draft : RequestDraft) :
    Option String × Source → Except DecodeFault RequestDraft
  | (none, _) => .error .malformed
  | (some name, source) =>
    if name = "schemas" then do
      let schemas ← once name draft.schemas (decodeList decodeString source)
      return { draft with schemas }
    else if name = "Operations" ∨ name = "operations" then do
      let operations ←
        once "Operations" draft.operations (decodeList (decodeOperation limit) source)
      return { draft with operations }
    else do
      source.ignore
      return draft

/-- Reads a request. As an array it needs both fields. -/
def decodeRequestDraft (limit : Option Nat) : Source → Except DecodeFault RequestDraft
  | obj members => members.foldlM (RequestDraft.addMember limit) {}
  | arr items => do
    let fields := (["schemas", "Operations"].map some).zip items
    let draft ← fields.foldlM (RequestDraft.addMember limit) {}
    if items.length = 2 then return draft else throw .malformed
  | _ => .error .malformed

def decodeRequest (limit : Option Nat) (source : Source) : Except DecodeFault Request := do
  let draft ← source.decodeRequestDraft limit
  let operations ← required "Operations" draft.operations
  return ⟨draft.schemas.getD [], operations⟩

end Source

end Json

namespace Operation

def toJson (operation : Operation) : Json :=
  .obj ([("op", .str operation.op.name)] ++
    (operation.path.map fun path => ("path", Json.str path)).toList ++
    (operation.value.map fun value => ("value", value)).toList)

def ofJson (value : Json) : Except DecodeFault Operation :=
  (Json.Source.ofJson value).decodeOperation none

end Operation

namespace Edit

def toJson (edit : Edit) : Json :=
  .obj ([("op", .str edit.op.name), ("path", .str edit.pointer)] ++
    (edit.value.map fun value => ("value", value)).toList)

def ofJson (value : Json) : Except DecodeFault Edit :=
  (Json.Source.ofJson value).decodeEdit none

end Edit

namespace Request

/-- A request that declares schemas must declare the one of PATCH requests. -/
def validate (request : Request) : Except PatchError Unit :=
  if request.schemas = [] ∨ request.schemas.any (Text.sameFolded patchOpSchema) then .ok ()
  else .error (.invalidRequest .schemaMissing)

def toJson (request : Request) : Json :=
  .obj [("schemas", .arr (request.schemas.map Json.str)),
    ("Operations", .arr (request.operations.map Operation.toJson))]

def accept (decoded : Except DecodeFault Request) : Except PatchError Request :=
  match decoded with
  | .error fault => .error (.invalidRequest (.undecodable fault))
  | .ok request => do
    request.validate
    return request

def ofJson (value : Json) : Except PatchError Request :=
  accept ((Json.Source.ofJson value).decodeRequest none)

def parse (text : String) : Except PatchError Request :=
  let (source, complete) := Json.Source.read text
  accept do
    let request ← source.decodeRequest (some (Json.nestingLimit - Json.operationDepth))
    if complete then return request else throw .malformed

end Request

end Scim
