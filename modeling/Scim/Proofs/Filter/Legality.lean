import Mathlib.Tactic.TFAE
import Scim.Filter.Evaluation
import Scim.Filter.Query

/-!
Which fault an illegal expression has. Checking, rendering and evaluating an expression fail with the
same fault, whatever the document: that of the leftmost leaf whose operator does not take its operand,
with its path prefixed by all groupings around it.
-/
namespace Scim

/-- Prefixing a path by one grouping after the other is prefixing it by both at once. -/
theorem AttributePath.under_under (path inner outer : AttributePath) :
    (path.under inner).under outer = path.under (inner.under outer) := by
  simp only [under, Option.or_assoc, List.append_assoc]

theorem AttributePath.within_under (path inner : AttributePath) (outer : Option AttributePath) :
    (path.under inner).within outer = path.within (some (inner.within outer)) := by
  cases outer with
  | none => rfl
  | some outer => exact under_under path inner outer

/-- A leaf with an operand: its operator, the type of the operand and its path. -/
structure Test where
  op : CompareOp
  type : ValueType
  path : AttributePath
  deriving DecidableEq, Repr

namespace Test

def isLegal (test : Test) : Bool := test.op.supports test.type

def under (parent : AttributePath) (test : Test) : Test :=
  { test with path := test.path.under parent }

def mismatch (test : Test) : Mismatch := ⟨test.op, test.type, test.path⟩

end Test

namespace Expression

/-- The leaves with operands from left to right, their paths prefixed by all groupings around them. -/
def tests : Expression → List Test
  | present _ => []
  | null path op => [⟨op, .null, path⟩]
  | comparison path op value => [⟨op, value.type, path⟩]
  | grouping parent filter => filter.tests.map (Test.under parent)
  | logical _ left right => left.tests ++ right.tests
  | negation filter => filter.tests

def illegal? (expression : Expression) : Option Test :=
  expression.tests.find? fun test => !test.isLegal

/-- The illegal leaf that is found has only legal ones before it. -/
theorem illegal?_eq_some_iff {expression : Expression} {test : Test} :
    expression.illegal? = some test ↔ ∃ before after, expression.tests = before ++ test :: after ∧
      (∀ earlier ∈ before, earlier.isLegal = true) ∧ test.isLegal = false := by
  simp only [illegal?, List.find?_eq_some_iff_append, Bool.not_eq_true', Bool.not_not]
  constructor
  · rintro ⟨htest, before, after, htests, hbefore⟩
    exact ⟨before, after, htests, by simpa using hbefore, htest⟩
  · rintro ⟨before, after, htests, hbefore, htest⟩
    exact ⟨htest, before, after, htests, by simpa using hbefore⟩

def verdict (parent : Option AttributePath) : Option Test → Except Mismatch Unit
  | none => .ok ()
  | some test => .error ⟨test.op, test.type, test.path.within parent⟩

theorem verdict_leaf (parent : Option AttributePath) (test : Test) :
    verdict parent ([test].find? fun test => !test.isLegal) =
      checkOperator test.op test.type (test.path.within parent) := by
  by_cases hlegal : test.isLegal = true
  · have hsupports : test.op.supports test.type = true := hlegal
    simp [verdict, checkOperator, hlegal, hsupports]
  · have hsupports : ¬test.op.supports test.type = true := hlegal
    simp [verdict, checkOperator, hlegal, hsupports]

theorem verdict_or (parent : Option AttributePath) (left right : Option Test) :
    verdict parent (left.or right) = (do verdict parent left; verdict parent right) := by
  cases left <;> rfl

theorem verdict_map_under (parent : Option AttributePath) (group : AttributePath)
    (found : Option Test) : verdict parent (found.map (Test.under group)) =
      verdict (some (group.within parent)) found := by
  cases found with
  | none => rfl
  | some test =>
    rw [Option.map_some, verdict, verdict, ← AttributePath.within_under]
    rfl

theorem illegal?_grouping (parent : AttributePath) (filter : Expression) :
    (grouping parent filter).illegal? = filter.illegal?.map (Test.under parent) := List.find?_map

theorem illegal?_logical (op : LogicalOp) (left right : Expression) :
    (logical op left right).illegal? = left.illegal?.or right.illegal? := List.find?_append

/-- The check reports the leftmost illegal leaf. -/
theorem checkWithin_eq_verdict (parent : Option AttributePath) (expression : Expression) :
    expression.checkWithin parent = verdict parent expression.illegal? := by
  induction expression generalizing parent with
  | present path => rfl
  | null path op => exact (verdict_leaf parent ⟨op, .null, path⟩).symm
  | comparison path op value => exact (verdict_leaf parent ⟨op, value.type, path⟩).symm
  | grouping group filter ih => rw [checkWithin, ih, illegal?_grouping, verdict_map_under]
  | logical op left right ihLeft ihRight =>
    rw [checkWithin, ihLeft, ihRight, illegal?_logical, verdict_or]
  | negation filter ih => exact ih parent

theorem check_eq_error_iff {expression : Expression} {mismatch : Mismatch} :
    expression.check = .error mismatch ↔
      ∃ test, expression.illegal? = some test ∧ mismatch = test.mismatch := by
  rw [check, checkWithin_eq_verdict]
  cases expression.illegal? with
  | none => simp [verdict]
  | some test => simp [verdict, Test.mismatch, AttributePath.within, eq_comm]

/-- A grouping is legal if its filter is. -/
theorem check_grouping {filter : Expression} (h : filter.check = .ok ()) (parent : AttributePath) :
    (grouping parent filter).check = .ok () := by
  rw [check, checkWithin_eq_verdict] at h ⊢
  rw [illegal?_grouping]
  cases hillegal : filter.illegal? with
  | none => rfl
  | some test => simp [hillegal, verdict] at h

/-- Rendering fails where checking does, with the same fault. -/
theorem map_renderWithin (parent : Option AttributePath) (expression : Expression) :
    (Query.renderWithin parent expression).map (fun _ => ()) = expression.checkWithin parent := by
  induction expression generalizing parent with
  | present path => rfl
  | null path op =>
    rw [Query.renderWithin, checkWithin]
    cases checkOperator op .null (path.within parent) <;> rfl
  | comparison path op value =>
    rw [Query.renderWithin, checkWithin]
    cases checkOperator op value.type (path.within parent) <;> rfl
  | grouping group filter ih => exact ih _
  | logical op left right ihLeft ihRight =>
    rw [Query.renderWithin, checkWithin, ← ihLeft, ← ihRight]
    cases Query.renderWithin parent left with
    | error mismatch => rfl
    | ok leftText => cases Query.renderWithin parent right <;> rfl
  | negation filter ih =>
    rw [Query.renderWithin, checkWithin, ← ih]
    cases Query.renderWithin parent filter <;> rfl

/-- Rendering fails exactly where the check does, and with the same fault. -/
theorem render_eq_error_iff {expression : Expression} {mismatch : Mismatch} :
    Query.render expression = .error mismatch ↔ expression.check = .error mismatch := by
  rw [check, ← map_renderWithin, Query.render]
  cases Query.renderWithin none expression <;> simp [Except.map]

/-- So does evaluation, whatever the document. -/
theorem accepts_eq_error_iff (config : Config) (document : Json) {expression : Expression}
    {mismatch : Mismatch} : config.accepts expression document = .error mismatch ↔
      expression.check = .error mismatch := by
  rw [Config.accepts]
  cases expression.check <;> simp [bind, Except.bind, pure, Except.pure]

theorem select_eq_error_iff (config : Config) (documents : List Json) {expression : Expression}
    {mismatch : Mismatch} : config.select expression documents = .error mismatch ↔
      expression.check = .error mismatch := by
  rw [Config.select]
  cases expression.check <;> simp [bind, Except.bind, pure, Except.pure]

/-- All consumers of an expression report the same fault, whatever the documents, and it is that of
the leftmost leaf whose operator does not take its operand. -/
theorem error_tfae (config : Config) (expression : Expression) (mismatch : Mismatch) : [
    expression.check = .error mismatch,
    Query.render expression = .error mismatch,
    ∃ document, config.accepts expression document = .error mismatch,
    ∀ document, config.accepts expression document = .error mismatch,
    ∃ documents, config.select expression documents = .error mismatch,
    ∀ documents, config.select expression documents = .error mismatch,
    ∃ before test after, expression.tests = before ++ test :: after ∧
      (∀ earlier ∈ before, earlier.op.supports earlier.type = true) ∧
      test.op.supports test.type = false ∧ mismatch = ⟨test.op, test.type, test.path⟩].TFAE := by
  tfae_have 1 ↔ 2 := render_eq_error_iff.symm
  tfae_have 1 → 4 := fun h document => (accepts_eq_error_iff config document).2 h
  tfae_have 4 → 3 := fun h => ⟨.null, h .null⟩
  tfae_have 3 → 1 := fun ⟨document, h⟩ => (accepts_eq_error_iff config document).1 h
  tfae_have 1 → 6 := fun h documents => (select_eq_error_iff config documents).2 h
  tfae_have 6 → 5 := fun h => ⟨[], h []⟩
  tfae_have 5 → 1 := fun ⟨documents, h⟩ => (select_eq_error_iff config documents).1 h
  tfae_have 1 ↔ 7 := by
    rw [check_eq_error_iff]
    constructor
    · rintro ⟨test, htest, hmismatch⟩
      obtain ⟨before, after, htests, hbefore, hillegal⟩ := illegal?_eq_some_iff.1 htest
      exact ⟨before, test, after, htests, hbefore, hillegal, hmismatch⟩
    · rintro ⟨before, test, after, htests, hbefore, hillegal, hmismatch⟩
      exact ⟨test, illegal?_eq_some_iff.2 ⟨before, after, htests, hbefore, hillegal⟩, hmismatch⟩
  tfae_finish

end Expression

end Scim
