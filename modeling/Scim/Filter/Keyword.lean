/-!
The keywords of filters and which values each comparison takes.
-/
namespace Scim

inductive ValueType where
  | text
  | number
  | boolean
  | date
  | null
  deriving DecidableEq, Repr

def ValueType.all : List ValueType := [.text, .number, .boolean, .date, .null]

def ValueType.name : ValueType → String
  | text => "text"
  | number => "number"
  | boolean => "boolean"
  | date => "date"
  | null => "null"

inductive CompareOp where
  | eq
  | ne
  | co
  | sw
  | ew
  | pr
  | gt
  | ge
  | lt
  | le
  deriving DecidableEq, Repr

namespace CompareOp

def all : List CompareOp := [eq, ne, co, sw, ew, pr, gt, ge, lt, le]

def keyword : CompareOp → String
  | eq => "eq"
  | ne => "ne"
  | co => "co"
  | sw => "sw"
  | ew => "ew"
  | pr => "pr"
  | gt => "gt"
  | ge => "ge"
  | lt => "lt"
  | le => "le"

/-- Keywords are small letters only. -/
def ofKeyword? (word : String) : Option CompareOp := all.find? fun op => op.keyword == word

def isSubstring (op : CompareOp) : Bool := op == co || op == sw || op == ew

/-- Text takes every comparison, numbers and dates those of equality and order, booleans and null
those of equality. Presence takes no operand. -/
def supports : CompareOp → ValueType → Bool
  | pr, _ => false
  | _, .text => true
  | op, .number => !op.isSubstring
  | op, .date => !op.isSubstring
  | op, .boolean => op == eq || op == ne
  | op, .null => op == eq || op == ne

theorem ofKeyword?_keyword (op : CompareOp) : ofKeyword? op.keyword = some op := by
  cases op <;> decide +kernel

theorem keyword_of_ofKeyword? {word : String} {op : CompareOp} (h : ofKeyword? word = some op) :
    op.keyword = word := by
  simpa using List.find?_some h

end CompareOp

inductive LogicalOp where
  | and
  | or
  deriving DecidableEq, Repr

namespace LogicalOp

def keyword : LogicalOp → String
  | and => "and"
  | or => "or"

def ofKeyword? (word : String) : Option LogicalOp :=
  [and, or].find? fun op => op.keyword == word

theorem ofKeyword?_keyword (op : LogicalOp) : ofKeyword? op.keyword = some op := by
  cases op <;> decide +kernel

theorem keyword_of_ofKeyword? {word : String} {op : LogicalOp} (h : ofKeyword? word = some op) :
    op.keyword = word := by
  simpa using List.find?_some h

end LogicalOp

end Scim
