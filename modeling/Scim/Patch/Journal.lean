import Scim.Json.Writer
import Scim.Patch.Conversion
import Scim.Text.Printable

/-!
What a conversion tells about itself: one entry for each operation and for each decision that a
reader of its result would wonder about. Entries up to a failure are kept.
-/
namespace Scim.Patch

inductive Entry where
  | rootTargeted (op : PatchOp)
  | attributeTargeted (op : PatchOp) (path : AttributePath)
  | filterTargeted (op : PatchOp) (text : String)
  | incomparable (value : Json) (type : ValueType)
  | nothingSelected (filter : Expression) (pointer : List String)
  | nothingToRemove (pointer : List String)
  | targetAbsent (pointer : List String)
  | expanded (operation : Operation) (count : Nat)
  | covered (removal : Removal)

namespace Entry

/-- Single values are traced, everything else is for debugging. -/
def level : Entry → String
  | incomparable _ _ => "TRACE"
  | _ => "DEBUG"

def pathText : Option String → String
  | none => "None"
  | some path => s!"Some({Text.shown path})"

def message : Entry → String
  | rootTargeted op => s!"{op.name} without a path targets the resource root"
  | attributeTargeted op path => s!"{op.name} on attribute path '{path.text}'"
  | filterTargeted op text => s!"{op.name} on filtered path '{text}'"
  | incomparable value type => s!"Value {value.text} is not comparable with {type.name} operand"
  | nothingSelected filter pointer =>
    s!"filter '{filter.text}' matched no element of {Pointer.text pointer}"
  | nothingToRemove pointer => s!"nothing to remove at {Pointer.text pointer}"
  | targetAbsent pointer => s!"replace target {Pointer.text pointer} is absent, adding instead"
  | expanded operation count =>
    s!"SCIM {operation.op.name} on {pathText operation.path} expanded into {count} " ++
      "JSON Patch operation(s)"
  | covered removal =>
    s!"removal of {removal.edit.pointer} is covered by a whole-array operation"

end Entry

/-- The values looked at until a test holds, that value included. -/
def examined {α : Type} (test : α → Bool) : List α → List α
  | [] => []
  | value :: rest => if test value then [value] else value :: examined test rest

def incomparables (config : Config) : Expression → Json → List Entry
  | .present _, _ => []
  | .null _ _, _ => []
  | .comparison path op value, document =>
    ((examined (value.holds op) (config.resolve document path)).filter fun actual =>
      (value.compare? op actual).isNone).map (.incomparable · value.type)
  | .grouping parent filter, document =>
    (examined (config.holds filter) (config.resolve document parent)).flatMap fun node =>
      incomparables config filter node
  | .logical .and left right, document =>
    incomparables config left document ++
      if config.holds left document then incomparables config right document else []
  | .logical .or left right, document =>
    incomparables config left document ++
      if config.holds left document then [] else incomparables config right document
  | .negation filter, document => incomparables config filter document

def criterionEntries (config : Config) (element criterion : Json) : List Entry :=
  match element, criterion with
  | .obj members, .obj fields =>
    (examined (fun (field, expected) => !fieldHolds config members field expected) fields).flatMap
      fun (field, expected) =>
        match fieldFilter? field expected with
        | some filter => incomparables config filter element
        | none => []
  | _, _ => []

def targetEntries (config : Config) (tokens : List String) (target : Option Json) :
    Action → List Entry
  | .add _ => []
  | .replace _ => if target.isSome then [] else [.targetAbsent tokens]
  | .remove criteria =>
    match target, criteria with
    | none, _ => [.nothingToRemove tokens]
    | some (.arr items), some criteria =>
      items.flatMap fun item =>
        (examined (satisfies config item) criteria.elements).flatMap (criterionEntries config item)
    | _, _ => []

def selectedEntries (config : Config) (tokens : List String) (sub : Option AttributePath)
    (action : Action) (selection : Option Nat × Json) : List Entry :=
  match sub, action with
  | none, _ => []
  | some sub, action =>
    let inner := config.pointer selection.2 sub
    let action := match action with
      | .remove _ => .remove none
      | action => action
    targetEntries config (elementTokens tokens selection.1 ++ inner)
      (Pointer.lookup inner selection.2) action

def filteredEntries (config : Config) (document : Json) (path : ValuePath) (action : Action) :
    List Entry :=
  match path.filter.check with
  | .error _ => []
  | .ok () =>
    let tokens := config.pointer document path.target
    let target := Pointer.lookup tokens document
    let candidates := match target with
      | some (.arr items) => items
      | some (.obj members) => [.obj members]
      | _ => []
    let selection := selected config path.filter target
    candidates.flatMap (incomparables config path.filter) ++
      (if selection = [] then [.nothingSelected path.filter tokens] else []) ++
      selection.flatMap (selectedEntries config tokens path.sub action)

def operationEntries (config : Config) (document : Json) (operation : Operation) : List Entry :=
  match actionOf operation with
  | .error _ => []
  | .ok action =>
    let text := operation.path.getD ""
    if text = "" then [.rootTargeted operation.op]
    else match PatchPath.parse text with
      | .error _ => []
      | .ok (.plain path) =>
        let tokens := config.pointer document path
        .attributeTargeted operation.op path ::
          if tokens = [] then []
          else targetEntries config tokens (Pointer.lookup tokens document) action
      | .ok (.filtered path) =>
        .filterTargeted operation.op text :: filteredEntries config document path action

/-- The number of edits that some steps stand for while none of them is superseded. -/
def produced (steps : List Step) : Nat := (immediate steps).length + (staged steps).length

def journalAfter (config : Config) (document : Json) : List Step → List Operation → List Entry
  | before, [] => (stagedWhere true before).map .covered
  | before, operation :: operations =>
    operationEntries config document operation ++
      match operationSteps config document operation with
      | .error _ => []
      | .ok steps =>
        .expanded operation (produced (before ++ steps) - produced before) ::
          journalAfter config document (before ++ steps) operations

def journal (config : Config) (document : Json) (operations : List Operation) : List Entry :=
  journalAfter config document [] operations

end Scim.Patch
