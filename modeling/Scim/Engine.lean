import Scim.Filter.Evaluation
import Scim.Filter.Query
import Scim.Patch.Edit
import Scim.Patch.Conversion
import Scim.Patch.Request

/-!
Filters and PATCH requests from their texts: what a service that holds resources asks of this
library.
-/
namespace Scim

inductive FilterError where
  | unreadable (error : Filter.SyntaxError)
  | illegal (mismatch : Mismatch)
  deriving DecidableEq, Repr

def FilterError.message : FilterError → String
  | unreadable error => error.message
  | illegal mismatch => mismatch.message

inductive Failure where
  | filter (error : FilterError)
  | patch (error : PatchError)
  | json (fault : DecodeFault)
  deriving DecidableEq, Repr

def Failure.message : Failure → String
  | filter error => s!"Filter error: {error.message}"
  | patch error => s!"Patch error: {error.message}"
  | json fault => s!"JSON error: {fault.message}"

namespace Engine

/-- Names the stage that failed. -/
def staged {ε α : Type} (stage : ε → Failure) : Except ε α → Except Failure α
  | .ok value => .ok value
  | .error error => .error (stage error)

def readDocument (text : String) : Except Failure Json :=
  match Json.read (some Json.nestingLimit) text with
  | some document => .ok document
  | none => .error (.json .malformed)

def readFilter (text : String) : Except Failure Expression :=
  staged (.filter ∘ .unreadable) (Filter.parse text)

def accepts (config : Config) (filter : Expression) (document : Json) : Except Failure Bool :=
  staged (.filter ∘ .illegal) (config.accepts filter document)

def query (filter : Expression) : Except Failure String :=
  staged (.filter ∘ .illegal) (Query.render filter)

def convertRequest (config : Config) (document : Json) (request : Request) :
    Except PatchError (List Edit) := do
  request.validate
  Patch.convert config document request.operations

def patch (config : Config) (document : Json) (text : String) : Except Failure Json :=
  staged .patch do
    let request ← Request.parse text
    let edits ← Patch.convert config document request.operations
    Edit.applyAll edits document

end Engine

end Scim
