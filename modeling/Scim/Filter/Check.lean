import Scim.Filter.Expression

/-!
Which expressions are legal: every leaf must compare with an operator that takes its operand. The
whole expression is checked, so no evaluation order can hide an illegal leaf.
-/
namespace Scim

/-- A comparison whose operator does not take its operand. -/
structure Mismatch where
  op : CompareOp
  type : ValueType
  path : AttributePath
  deriving DecidableEq, Repr

def Mismatch.message (mismatch : Mismatch) : String :=
  s!"Invalid filter expression: operator '{mismatch.op.keyword}' cannot be applied to " ++
    s!"{mismatch.type.name} value of '{mismatch.path.text}'"

def checkOperator (op : CompareOp) (type : ValueType) (path : AttributePath) :
    Except Mismatch Unit :=
  if op.supports type then .ok () else .error ⟨op, type, path⟩

namespace Expression

/-- Checks the leaves from left to right, paths taken inside the groupings around them. -/
def checkWithin : Option AttributePath → Expression → Except Mismatch Unit
  | _, present _ => .ok ()
  | parent, null path op => checkOperator op .null (path.within parent)
  | parent, comparison path op value => checkOperator op value.type (path.within parent)
  | parent, grouping group filter => checkWithin (some (group.within parent)) filter
  | parent, logical _ left right => do
    checkWithin parent left
    checkWithin parent right
  | parent, negation filter => checkWithin parent filter

def check (expression : Expression) : Except Mismatch Unit := checkWithin none expression

end Expression

end Scim
