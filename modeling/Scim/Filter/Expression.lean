import Scim.Attribute.Path
import Scim.Filter.Operand

/-!
Filter expressions and their canonical text. Logical operands that are logical themselves stand in
parentheses, so that the text reads back as the same expression.
-/
namespace Scim

/-- Paths inside a grouping are relative to its parent. -/
inductive Expression where
  | present (path : AttributePath)
  | null (path : AttributePath) (op : CompareOp)
  | comparison (path : AttributePath) (op : CompareOp) (value : Operand)
  | grouping (parent : AttributePath) (filter : Expression)
  | logical (op : LogicalOp) (left right : Expression)
  | negation (filter : Expression)
  deriving DecidableEq

namespace Expression

/-- The path that a leaf tests, or the parent of a grouping. -/
def path? : Expression → Option AttributePath
  | present path => some path
  | null path _ => some path
  | comparison path _ _ => some path
  | grouping parent _ => some parent
  | logical _ _ _ => none
  | negation _ => none

def isLogical : Expression → Bool
  | logical _ _ _ => true
  | _ => false

def operandText (operand : Expression) (text : String) : String :=
  if operand.isLogical then "(" ++ text ++ ")" else text

def text : Expression → String
  | present path => path.text ++ " pr"
  | null path op => path.text ++ " " ++ op.keyword ++ " null"
  | comparison path op value => path.text ++ " " ++ op.keyword ++ " " ++ value.literal
  | grouping parent filter => parent.text ++ "[" ++ filter.text ++ "]"
  | logical op left right =>
    operandText left left.text ++ " " ++ op.keyword ++ " " ++ operandText right right.text
  | negation filter => "not (" ++ filter.text ++ ")"

/-- The same expression up to the spelling of numbers and the offsets of dates. -/
def agrees : Expression → Expression → Bool
  | present p, present q => p == q
  | null p op, null q oq => p == q && op == oq
  | comparison p op v, comparison q oq w => p == q && op == oq && v.agrees w
  | grouping p f, grouping q g => p == q && f.agrees g
  | logical op l r, logical oq m s => op == oq && l.agrees m && r.agrees s
  | negation f, negation g => f.agrees g
  | _, _ => false

end Expression

end Scim
