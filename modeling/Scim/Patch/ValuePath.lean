import Scim.Patch.Fault

/-!
The paths of PATCH operations: an attribute path, or an attribute with a filter in brackets and
perhaps a sub-attribute. The filter reaches from the first opening bracket to the last closing one.
-/
namespace Scim

/-- An attribute, a filter that selects among its values, and perhaps an attribute of those. -/
structure ValuePath where
  target : AttributePath
  filter : Expression
  sub : Option AttributePath
  deriving DecidableEq

inductive PatchPath where
  | plain (path : AttributePath)
  | filtered (path : ValuePath)
  deriving DecidableEq

namespace PatchPath

def isBracket (c : Char) : Bool := c == '[' || c == ']'

def subText : List Char → Option (Option (List Char))
  | [] => some none
  | '.' :: c :: cs => if (c :: cs).any isBracket then none else some (some (c :: cs))
  | _ => none

/-- The three parts of a text with a filter, if it has the shape of one. -/
def split (cs : List Char) : Option (List Char × List Char × Option (List Char)) :=
  let target := cs.takeWhile (!isBracket ·)
  match cs.dropWhile (!isBracket ·) with
  | '[' :: rest =>
    let after := (rest.reverse.takeWhile (· != ']')).reverse
    let filter := rest.take (rest.length - after.length - 1)
    if target = [] ∨ after.length = rest.length ∨ filter = [] ∨ '\n' ∈ filter then none
    else (subText after).map fun sub => (target, filter, sub)
  | _ => none

def parseAttribute (cs : List Char) : Except PathFault AttributePath :=
  match AttributePath.parse (String.ofList cs) with
  | .ok path => .ok path
  | .error fault => .error (.invalidAttribute fault)

def parseFilter (cs : List Char) : Except PathFault Expression :=
  match Filter.parse (String.ofList cs) with
  | .ok filter => .ok filter
  | .error error => .error (.invalidFilter error)

/-- A sub-attribute belongs to the schema of its attribute. -/
def parseSub : Option (List Char) → Except PathFault (Option AttributePath)
  | none => .ok none
  | some cs => do
    let path ← parseAttribute cs
    if path.schema.isSome then throw .qualifiedSub
    return some path

def parseChars (cs : List Char) : Except PathFault PatchPath :=
  match split cs with
  | some (target, filter, sub) => do
    let target ← parseAttribute target
    let filter ← parseFilter filter
    let sub ← parseSub sub
    return .filtered ⟨target, filter, sub⟩
  | none =>
    if cs.any isBracket then .error .unbalancedBrackets
    else (parseAttribute cs).map .plain

def parse (text : String) : Except PatchError PatchPath :=
  match parseChars text.toList with
  | .ok path => .ok path
  | .error fault => .error (.malformedPath text fault)

end PatchPath

end Scim
