import Scim.Attribute.Lookup
import Scim.Filter.Check
import Scim.Text.Basic

/-!
Evaluating filters. A leaf holds if any value of its path satisfies it, and a value that cannot be
compared with the operand does not.
-/
namespace Scim

/-- The orderings that satisfy an operator of equality or order. -/
def CompareOp.accepts : CompareOp → Ordering → Bool
  | eq, ordering => ordering == .eq
  | ne, ordering => ordering != .eq
  | gt, ordering => ordering == .gt
  | ge, ordering => ordering != .lt
  | lt, ordering => ordering == .lt
  | le, ordering => ordering != .gt
  | _, _ => false

def Json.decimal? : Json → Option Decimal
  | num spelling => Decimal.read spelling
  | _ => none

def Json.date? : Json → Option DateTime
  | str text => Timestamp.read .lenient text
  | _ => none

namespace Operand

def compareText (op : CompareOp) (actual expected : List Char) : Bool :=
  match op with
  | .co => Text.occursIn expected actual
  | .sw => expected.isPrefixOf actual
  | .ew => expected.isSuffixOf actual
  | _ => op.accepts (Text.order actual expected)

/-- Compares a value of a document with an operand; none if they cannot be compared. -/
def compare? (op : CompareOp) (expected : Operand) (actual : Json) : Option Bool :=
  match expected, actual with
  | text expected, .str actual => some (compareText op actual.toList expected.toList)
  | number expected, actual => actual.decimal?.map fun value => op.accepts (value.order expected)
  | boolean expected, .bool actual => some (op.accepts (compare actual expected))
  | date expected, actual => actual.date?.map fun value => op.accepts (value.order expected)
  | _, _ => none

def holds (op : CompareOp) (expected : Operand) (actual : Json) : Bool :=
  (compare? op expected actual).getD false

end Operand

namespace Config

/-- A path has a value other than null. -/
def hasValue (config : Config) (document : Json) (path : AttributePath) : Bool :=
  (config.resolve document path).any fun value => !value.isNull

/-- The truth of an expression, legal or not, for a document. -/
def holds (config : Config) : Expression → Json → Bool
  | .present path, document => config.hasValue document path
  | .null path op, document =>
    if op = .eq then !config.hasValue document path else config.hasValue document path
  | .comparison path op value, document => (config.resolve document path).any (value.holds op)
  | .grouping parent filter, document =>
    (config.resolve document parent).any fun node => config.holds filter node
  | .logical .and left right, document => config.holds left document && config.holds right document
  | .logical .or left right, document => config.holds left document || config.holds right document
  | .negation filter, document => !config.holds filter document

def accepts (config : Config) (filter : Expression) (document : Json) : Except Mismatch Bool := do
  filter.check
  return config.holds filter document

def select (config : Config) (filter : Expression) (documents : List Json) :
    Except Mismatch (List Json) := do
  filter.check
  return documents.filter fun document => config.holds filter document

end Config

end Scim
