import Scim.Attribute.Path
import Scim.Json.Basic

/-!
Finding attributes in documents. A name is looked up exactly first and then, unless attributes are
case exact, without regard to case; of several members the first one counts.
-/
namespace Scim

/-- The attributes of a core schema are members of the resource itself; any other schema is a member
that holds its attributes. -/
structure Config where
  coreSchemas : List String := [AttributePath.coreUserSchema, AttributePath.coreGroupSchema]
  caseExact : Bool := false
  deriving DecidableEq, Repr

namespace Config

def isCore (config : Config) (schema : String) : Bool :=
  config.coreSchemas.any fun core => Text.sameFolded core schema

def member? (config : Config) (members : List (String × Json)) (name : String) :
    Option (String × Json) :=
  (members.find? fun member => member.1 == name).or
    (if config.caseExact then none
      else members.find? fun member => Text.sameFolded member.1 name)

def key? (config : Config) (members : List (String × Json)) (name : String) : Option String :=
  (config.member? members name).map Prod.fst

def names (config : Config) (path : AttributePath) : List String :=
  (path.schema.toList.filter fun schema => !config.isCore schema) ++ path.segments

def children (config : Config) (nodes : List Json) (name : String) : List Json :=
  (nodes.flatMap Json.elements).filterMap fun parent =>
    (parent.members?.bind fun members => config.member? members name).map Prod.snd

def resolve (config : Config) (document : Json) (path : AttributePath) : List Json :=
  ((config.names path).foldl config.children [document]).flatMap Json.elements

/-- The tokens that lead to a path, each name as the document spells it. From the first name on that
the document does not have, names stay as they are given. -/
def tokens (config : Config) : List String → Option Json → List String
  | [], _ => []
  | name :: names, document =>
    match (document.bind Json.members?).bind fun members => config.member? members name with
    | some (key, child) => key :: config.tokens names (some child)
    | none => name :: config.tokens names none

def pointer (config : Config) (document : Json) (path : AttributePath) : List String :=
  config.tokens (config.names path) (some document)

end Config

end Scim
