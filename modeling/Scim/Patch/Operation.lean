import Scim.Json.Basic
import Scim.Text.Basic

/-!
The operations of a PATCH request and the edits of a JSON Patch that they are converted into.
-/
namespace Scim

inductive PatchOp where
  | add
  | remove
  | replace
  deriving DecidableEq, Repr

namespace PatchOp

def name : PatchOp → String
  | add => "add"
  | remove => "remove"
  | replace => "replace"

/-- Names are read without regard to case. -/
def ofName? (name : String) : Option PatchOp :=
  [add, remove, replace].find? fun op => Text.sameFolded op.name name

end PatchOp

/-- An operation of a PATCH request. Its path may hold a filter. -/
structure Operation where
  op : PatchOp
  path : Option String
  value : Option Json
  deriving DecidableEq, Repr

/-- An operation of a JSON Patch, at the place that a pointer's text leads to. -/
structure Edit where
  op : PatchOp
  pointer : String
  value : Option Json
  deriving DecidableEq, Repr

end Scim
