import Scim.Filter.Query
import Scim.Proofs.Number.Value
import Scim.Proofs.Time.Utc

/-!
What a query asks for. Of a filter it keeps the qualified paths as they print, the relation that each
leaf tests, the number and the millisecond that it compares with, and how the leaves are connected.
-/
namespace Scim

namespace Query

inductive Relation where
  | eq
  | gt
  | ge
  | lt
  | le
  deriving DecidableEq, Repr

def Relation.op : Relation → CompareOp
  | eq => .eq
  | gt => .gt
  | ge => .ge
  | lt => .lt
  | le => .le

/-- The relation of an operator up to negation. Substring tests look for a pattern. -/
def relation : CompareOp → Relation
  | .gt => .gt
  | .ge => .ge
  | .lt => .lt
  | .le => .le
  | _ => .eq

inductive Literal where
  | text (pattern : String)
  | number (value : ℚ)
  | boolean (value : Bool)
  | date (instant : Instant)
  | null
  deriving DecidableEq

def Literal.type : Literal → ValueType
  | text _ => .text
  | number _ => .number
  | boolean _ => .boolean
  | date _ => .date
  | null => .null

/-- A star stands for the text behind a start or in front of an end. -/
def pattern (op : CompareOp) (text : String) : String :=
  match op with
  | .sw => text ++ "*"
  | .ew => "*" ++ text
  | _ => text

def literal (op : CompareOp) : Operand → Literal
  | .text text => .text (pattern op text)
  | .number value => .number value.value
  | .boolean value => .boolean value
  | .date value => .date value.instant.truncated

inductive Condition where
  | present (field : String)
  | comparison (field : String) (relation : Relation) (literal : Literal)
  | logical (op : LogicalOp) (left right : Condition)
  | negation (condition : Condition)
  deriving DecidableEq

def Condition.negatedIf (op : CompareOp) (condition : Condition) : Condition :=
  if op = .ne then negation condition else condition

inductive Shape where
  | leaf
  | logical (op : LogicalOp) (left right : Shape)
  | negation (shape : Shape)
  deriving DecidableEq, Repr

def Condition.shape : Condition → Shape
  | present _ => .leaf
  | comparison _ _ _ => .leaf
  | logical op left right => .logical op left.shape right.shape
  | negation condition => .negation condition.shape

end Query

open Query

namespace Expression

/-- What an expression inside the groupings around it asks for. -/
def conditionWithin : Option AttributePath → Expression → Condition
  | parent, present path => .present (path.within parent).text
  | parent, null path op => .negatedIf op (.comparison (path.within parent).text .eq .null)
  | parent, comparison path op value =>
    .negatedIf op (.comparison (path.within parent).text (relation op) (literal op value))
  | parent, grouping group filter => conditionWithin (some (group.within parent)) filter
  | parent, logical op left right =>
    .logical op (conditionWithin parent left) (conditionWithin parent right)
  | parent, negation filter => .negation (conditionWithin parent filter)

def condition (expression : Expression) : Condition := conditionWithin none expression

def leaves : Expression → List AttributePath
  | present path => [path]
  | null path _ => [path]
  | comparison path _ _ => [path]
  | grouping parent filter => filter.leaves.map fun path => path.under parent
  | logical _ left right => left.leaves ++ right.leaves
  | negation filter => filter.leaves

/-- How the leaves are connected. A grouping connects nothing, and inequality negates its leaf. -/
def shape : Expression → Shape
  | present _ => .leaf
  | null _ op => if op = .ne then .negation .leaf else .leaf
  | comparison _ op _ => if op = .ne then .negation .leaf else .leaf
  | grouping _ filter => filter.shape
  | logical op left right => .logical op left.shape right.shape
  | negation filter => .negation filter.shape

theorem shape_negatedIf (op : CompareOp) {condition : Condition} (h : condition.shape = .leaf) :
    (Condition.negatedIf op condition).shape = if op = .ne then .negation .leaf else .leaf := by
  unfold Condition.negatedIf
  split
  · rw [Condition.shape, h]
  · exact h

/-- The condition of an expression is connected like the expression. -/
theorem shape_conditionWithin (parent : Option AttributePath) (expression : Expression) :
    (expression.conditionWithin parent).shape = expression.shape := by
  induction expression generalizing parent with
  | present path => rfl
  | null path op => exact shape_negatedIf op rfl
  | comparison path op value => exact shape_negatedIf op rfl
  | grouping group filter ih => exact ih _
  | logical op left right ihLeft ihRight =>
    rw [conditionWithin, Condition.shape, ihLeft, ihRight, shape]
  | negation filter ih => rw [conditionWithin, Condition.shape, ih, shape]

end Expression

end Scim
