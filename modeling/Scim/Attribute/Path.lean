import Scim.Text.Basic

/-!
Attribute paths: attribute names joined by points, in front of which a schema URN may stand. A URN
is kept as it is written; points and colons inside it separate nothing.
-/
namespace Scim

/-- The attribute names are listed outermost first. A path with a schema and no names stands for the
schema itself. -/
structure AttributePath where
  schema : Option String
  segments : List String
  deriving DecidableEq, Repr

namespace AttributePath

def coreUserSchema : String := "urn:ietf:params:scim:schemas:core:2.0:User"

def coreGroupSchema : String := "urn:ietf:params:scim:schemas:core:2.0:Group"

def enterpriseUserSchema : String :=
  "urn:ietf:params:scim:schemas:extension:enterprise:2.0:User"

/-- The URNs known as a whole. What follows the last colon of any other URN is an attribute. -/
def knownSchemas : List String := [coreUserSchema, coreGroupSchema, enterpriseUserSchema]

inductive Fault where
  | empty
  | notAPath (text : String)
  | nameMissing (schema : String)
  | invalidName (name : String)
  deriving DecidableEq, Repr

def Fault.message : Fault → String
  | empty => "empty attribute path"
  | notAPath text => s!"'{text}' is not a valid attribute path"
  | nameMissing schema => s!"missing attribute name after schema '{schema}'"
  | invalidName name => s!"invalid attribute name '{name}'"

def isNameStart (c : Char) : Bool := c.isAlpha || c == '$' || c == '_'

def isNameRest (c : Char) : Bool := c.isAlphanum || c == '_' || c == '-'

def isName : List Char → Bool
  | [] => false
  | c :: cs => isNameStart c && cs.all isNameRest

def isUrn (cs : List Char) : Bool := (cs.take 4).map Char.toLower == ['u', 'r', 'n', ':']

/-- A known schema at the start of a text, as it is written there, and what follows it. The schema
ends with the text or before a colon. -/
def splitKnown (cs : List Char) (known : String) : Option (List Char × List Char) :=
  let length := known.toList.length
  if (cs.take length).map Char.toLower = Text.folded known ∧
      ((cs.drop length).head?.getD ':') = ':' then
    some (cs.take length, cs.drop length)
  else none

def splitLastColon (cs : List Char) : List Char × List Char :=
  let tail := (cs.reverse.takeWhile (· != ':')).length + 1
  (cs.take (cs.length - tail), cs.drop (cs.length - tail))

/-- The schema in front of a text that starts like a URN, and what follows it: nothing after a known
schema, or a colon and attribute names. -/
def splitSchema (cs : List Char) : List Char × List Char :=
  (knownSchemas.findSome? (splitKnown cs)).getD (splitLastColon cs)

def names (schema : Option String) (cs : List Char) : Except Fault AttributePath :=
  match (cs.splitOn '.').find? fun name => !isName name with
  | some name => .error (.invalidName (String.ofList name))
  | none => .ok ⟨schema, (cs.splitOn '.').map String.ofList⟩

def parse (text : String) : Except Fault AttributePath :=
  let cs := text.toList
  if cs = [] then .error .empty
  else if isUrn cs then
    let schema := String.ofList (splitSchema cs).1
    match (splitSchema cs).2 with
    | [] => .ok ⟨some schema, []⟩
    | [_] => .error (.nameMissing schema)
    | _ :: cs => names (some schema) cs
  else if ':' ∈ cs then .error (.notAPath text)
  else names none cs

def text (path : AttributePath) : String :=
  match path.schema, path.segments with
  | some schema, [] => schema
  | some schema, segments => schema ++ ":" ++ ".".intercalate segments
  | none, segments => ".".intercalate segments

/-- A path relative to a parent, as paths inside the brackets of a grouping are. A schema of the
parent wins. -/
def under (path parent : AttributePath) : AttributePath :=
  ⟨parent.schema.or path.schema, parent.segments ++ path.segments⟩

def within (path : AttributePath) : Option AttributePath → AttributePath
  | some parent => path.under parent
  | none => path

end AttributePath

end Scim
