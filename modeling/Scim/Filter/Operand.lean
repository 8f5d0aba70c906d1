import Scim.Filter.Keyword
import Scim.Number.Decimal
import Scim.Text.Basic
import Scim.Time.Timestamp

/-!
The values that comparisons take. A quoted literal that spells a timestamp strictly is a date, and
any other one is text.
-/
namespace Scim

inductive Operand where
  | text (text : String)
  | number (value : Decimal)
  | boolean (value : Bool)
  | date (value : DateTime)
  deriving DecidableEq

namespace Operand

def type : Operand → ValueType
  | text _ => .text
  | number _ => .number
  | boolean _ => .boolean
  | date _ => .date

def ofLiteral (literal : String) : Operand :=
  match Timestamp.read .strict literal with
  | some value => date value
  | none => text literal

def literal : Operand → String
  | .text value => Text.quoted value
  | .number value => value.text
  | .boolean true => "true"
  | .boolean false => "false"
  | .date value => Text.quoted (Timestamp.localText value)

/-- Equality of values: numbers however they are spelled, dates as instants. -/
def agrees : Operand → Operand → Bool
  | text a, text b => a == b
  | number a, number b => a.order b == .eq
  | boolean a, boolean b => a == b
  | date a, date b => a.instant == b.instant
  | _, _ => false

end Operand

end Scim
