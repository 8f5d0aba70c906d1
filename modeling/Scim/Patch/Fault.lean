import Scim.Filter.Check
import Scim.Filter.Reading
import Scim.Patch.Operation

/-!
What can be wrong with a PATCH request, with its operations and with the edits made of them, and the
message for each.
-/
namespace Scim

inductive PathFault where
  | invalidAttribute (fault : AttributePath.Fault)
  | invalidFilter (error : Filter.SyntaxError)
  | qualifiedSub
  | unbalancedBrackets
  | removeWithoutPath
  | addNeedsObject
  deriving DecidableEq, Repr

def PathFault.message : PathFault → String
  | invalidAttribute fault => fault.message
  | invalidFilter error => error.message
  | qualifiedSub => "sub-attribute cannot carry a schema URN"
  | unbalancedBrackets => "unbalanced filter brackets"
  | removeWithoutPath => "remove requires a path"
  | addNeedsObject => "add to a filtered element requires an object value or a sub-attribute"

inductive DecodeFault where
  | missingField (name : String)
  | duplicateField (name : String)
  | unsupportedOperation (name : String)
  | malformed
  deriving DecidableEq, Repr

def DecodeFault.message : DecodeFault → String
  | missingField name => s!"missing field `{name}`"
  | duplicateField name => s!"duplicate field `{name}`"
  | unsupportedOperation name => s!"Unsupported PATCH operation: {name}"
  | malformed => "malformed JSON"

def patchOpSchema : String := "urn:ietf:params:scim:api:messages:2.0:PatchOp"

inductive RequestFault where
  | undecodable (fault : DecodeFault)
  | schemaMissing
  | replaceNeedsObject
  deriving DecidableEq, Repr

def RequestFault.message : RequestFault → String
  | undecodable fault => fault.message
  | schemaMissing => s!"schemas must contain '{patchOpSchema}'"
  | replaceNeedsObject => "replace without a path requires an object value"

inductive EditFault where
  | noLeadingSlash
  | rootRemoval
  | missingMember
  | invalidIndex (token : String)
  | throughScalar
  | scalarParent
  deriving DecidableEq, Repr

def EditFault.message : EditFault → String
  | noLeadingSlash => "pointer must start with '/'"
  | rootRemoval => "cannot remove the document root"
  | missingMember => "no such member"
  | invalidIndex token => s!"'{token}' is not a valid array index"
  | throughScalar => "path runs through a scalar"
  | scalarParent => "parent is not a container"

inductive PatchError where
  | malformedPath (path : String) (fault : PathFault)
  | unsupportedOperation (name : String)
  | missingValue (op : PatchOp)
  | invalidRequest (fault : RequestFault)
  | filter (mismatch : Mismatch)
  | application (pointer : String) (fault : EditFault)
  deriving DecidableEq, Repr

def PatchError.message : PatchError → String
  | malformedPath path fault => s!"Malformed PATCH path '{path}': {fault.message}"
  | unsupportedOperation name => s!"Unsupported PATCH operation: {name}"
  | missingValue op => s!"PATCH operation '{op.name}' requires a value"
  | invalidRequest fault => s!"Invalid PATCH request: {fault.message}"
  | filter mismatch => s!"PATCH filter error: {mismatch.message}"
  | application pointer fault => s!"Cannot apply JSON Patch at '{pointer}': {fault.message}"

def PatchOp.parse (name : String) : Except PatchError PatchOp :=
  match ofName? name with
  | some op => .ok op
  | none => .error (.unsupportedOperation name)

end Scim
