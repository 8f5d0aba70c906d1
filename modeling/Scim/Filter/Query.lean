import Scim.Filter.Check

/-!
Filters as query strings of a search engine. Groupings are written with qualified paths, substring
tests with a star in the literal, and dates as ranges between instants in UTC.
-/
namespace Scim.Query

def isFieldSpecial (c : Char) : Bool := c == ':' || c == '-' || c == '/' || c == '\\'

def field (path : AttributePath) : String :=
  String.ofList (Text.backslashed isFieldSpecial path.text.toList)

def glyph : CompareOp → String
  | .gt => ":>"
  | .ge => ":>="
  | .lt => ":<"
  | .le => ":<="
  | _ => ":"

def numberText (value : Decimal) : String :=
  match value.text.toList with
  | '-' :: cs => String.ofList ('\\' :: '-' :: cs)
  | cs => String.ofList cs

def textPattern (op : CompareOp) (text : String) : String :=
  match op with
  | .sw => Text.quoted (text ++ "*")
  | .ew => Text.quoted ("*" ++ text)
  | _ => Text.quoted text

/-- A square bracket includes its bound and a brace leaves it out. -/
def dateRange (op : CompareOp) (bound : String) : String :=
  match op with
  | .ge => "[" ++ bound ++ " TO *]"
  | .gt => "\x7b" ++ bound ++ " TO *]"
  | .le => "[* TO " ++ bound ++ "]"
  | .lt => "[* TO " ++ bound ++ "\x7d"
  | _ => "[" ++ bound ++ " TO " ++ bound ++ "]"

/-- The clause of a comparison read as if it were not negated. -/
def clause (path : AttributePath) (op : CompareOp) (value : Operand) : String :=
  match value with
  | .text text => field path ++ glyph op ++ textPattern op text
  | .number value => field path ++ glyph op ++ numberText value
  | .boolean true => field path ++ glyph op ++ "true"
  | .boolean false => field path ++ glyph op ++ "false"
  | .date value => field path ++ ":" ++ dateRange op (Timestamp.utcText value)

def negated (clause : String) : String := "!(" ++ clause ++ ")"

/-- Inequality is the negation of the same clause. -/
def negatedIf (op : CompareOp) (clause : String) : String :=
  if op = .ne then negated clause else clause

def connective : LogicalOp → String
  | .and => " AND "
  | .or => " OR "

/-- The query of an expression inside the groupings around it. -/
def renderWithin : Option AttributePath → Expression → Except Mismatch String
  | parent, .present path => .ok ("_exists_:" ++ field (path.within parent))
  | parent, .null path op => do
    checkOperator op .null (path.within parent)
    return negatedIf op (field (path.within parent) ++ ":null")
  | parent, .comparison path op value => do
    checkOperator op value.type (path.within parent)
    return negatedIf op (clause (path.within parent) op value)
  | parent, .grouping group filter => renderWithin (some (group.within parent)) filter
  | parent, .logical op left right => do
    let left ← renderWithin parent left
    let right ← renderWithin parent right
    return "(" ++ left ++ connective op ++ right ++ ")"
  | parent, .negation filter => do
    let inner ← renderWithin parent filter
    return negated inner

def render (expression : Expression) : Except Mismatch String := renderWithin none expression

end Scim.Query
