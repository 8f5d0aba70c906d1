import Scim.Proofs.Number.Notation
import Scim.Proofs.Query.Comparison
import Scim.Proofs.Time.Instant

/-!
Queries of expressions that agree. Numbers are printed by their value and dates by their instant, so
expressions that differ only in how numbers are spelled and in which offsets dates are given have one
query, and they are true of the same documents. The bound of a date in a query is its instant up to
the millisecond.
-/
namespace Scim

namespace Query

variable {value other : Operand} {e e' : Expression}

/-- Operands that agree have the same clause. -/
theorem clause_of_agrees (h : value.agrees other = true) (path : AttributePath) (op : CompareOp) :
    clause path op value = clause path op other := by
  obtain rfl | ⟨a, b, rfl, rfl, hvalue⟩ | ⟨t, u, rfl, rfl, hinstant⟩ := Operand.agrees_cases h
  · rfl
  · simp only [clause, numberText, Decimal.text_eq_of_value_eq hvalue]
  · simp only [clause, Timestamp.utcText_eq_of_instant_eq hinstant]

/-- Expressions that agree have one query, or they fail alike. -/
theorem renderWithin_of_agrees (h : e.agrees e' = true) (parent : Option AttributePath) :
    renderWithin parent e = renderWithin parent e' := by
  fun_induction Expression.agrees e e' generalizing parent with
  | case1 p q =>
    obtain rfl := beq_iff_eq.1 h
    rfl
  | case2 p op q oq =>
    simp only [Bool.and_eq_true, beq_iff_eq] at h
    obtain ⟨rfl, rfl⟩ := h
    rfl
  | case3 p op value q oq other =>
    simp only [Bool.and_eq_true, beq_iff_eq] at h
    obtain ⟨⟨rfl, rfl⟩, hvalue⟩ := h
    rw [renderWithin, renderWithin, Operand.type_of_agrees hvalue, clause_of_agrees hvalue]
  | case4 p filter q other ih =>
    simp only [Bool.and_eq_true, beq_iff_eq] at h
    obtain ⟨rfl, hfilter⟩ := h
    exact ih hfilter _
  | case5 op left right oq left' right' ihleft ihright =>
    simp only [Bool.and_eq_true, beq_iff_eq] at h
    obtain ⟨⟨rfl, hleft⟩, hright⟩ := h
    rw [renderWithin, renderWithin, ihleft hleft, ihright hright]
  | case6 filter other ih => rw [renderWithin, renderWithin, ih h]
  | case7 => simp at h

/-- A comparison with a date is a range around the instant, or up to it or from it on. -/
theorem render_date {op : CompareOp} (h : op.supports .date = true) (path : AttributePath)
    (t : DateTime) : render (.comparison path op (.date t)) =
      .ok (negatedIf op (field path ++ ":" ++ dateRange op (Timestamp.utcText t))) := by
  simp only [render, renderWithin, Operand.type, checkOperator, h, if_true]
  rfl

end Query

open Query

/-- Date literals count by the instant that they name. Two literals of one instant have one query and
give one answer on every document, by themselves and wherever they stand in larger expressions. The
bound in the query reads back as the instant up to the millisecond. -/
theorem dates_by_instant :
    (∀ literal literal' t u, Operand.ofLiteral literal = .date t →
      Operand.ofLiteral literal' = .date u → t.instant = u.instant → ∀ path op,
      render (.comparison path op (.ofLiteral literal)) =
          render (.comparison path op (.ofLiteral literal')) ∧
        ∀ config : Config, ∀ document,
          config.accepts (.comparison path op (.ofLiteral literal)) document =
            config.accepts (.comparison path op (.ofLiteral literal')) document) ∧
    (∀ e e' : Expression, e.agrees e' = true → render e = render e' ∧
      ∀ config : Config, ∀ document, config.accepts e document = config.accepts e' document) ∧
    ∀ literal t, Operand.ofLiteral literal = .date t → 0 ≤ t.utc.date.year →
      t.utc.date.year ≤ 9999 → ∀ path op, op.supports .date = true →
      render (.comparison path op (.ofLiteral literal)) =
          .ok (negatedIf op (field path ++ ":" ++ dateRange op (Timestamp.utcText t))) ∧
        ∃ bound, Timestamp.read .strict (Timestamp.utcText t) = some bound ∧
          bound.instant = t.instant.truncated := by
  have hagrees : ∀ e e' : Expression, e.agrees e' = true → render e = render e' ∧
      ∀ config : Config, ∀ document, config.accepts e document = config.accepts e' document :=
    fun e e' h => ⟨renderWithin_of_agrees h none, fun config => config.accepts_eq_of_agrees h⟩
  refine ⟨?_, hagrees, ?_⟩
  · intro literal literal' t u ht hu hinstant path op
    apply hagrees
    simp [Expression.agrees, ht, hu, Operand.agrees, hinstant]
  · intro literal t ht hlow hhigh path op hop
    rw [ht]
    exact ⟨render_date hop path t, Timestamp.exists_read_utcText ⟨hlow, hhigh⟩⟩

/-- A leap second at the end of a year, and in an offset that is in the next year already. -/
theorem dates_by_instant_sample : ∃ t u bound : DateTime,
    Operand.ofLiteral "2016-12-31T23:59:60.9999Z" = .date t ∧
      Operand.ofLiteral "2017-01-01T01:59:60.9999+02:00" = .date u ∧ t.instant = u.instant ∧
      0 ≤ u.utc.date.year ∧ u.utc.date.year ≤ 9999 ∧ CompareOp.lt.supports .date = true ∧
      (Expression.negation (.comparison ⟨none, ["at"]⟩ .lt (.date t))).agrees
        (.negation (.comparison ⟨none, ["at"]⟩ .lt (.date u))) = true ∧
      (∀ document, Config.accepts {} (.comparison ⟨none, ["at"]⟩ .lt (.date t)) document =
        Config.accepts {} (.comparison ⟨none, ["at"]⟩ .lt (.date u)) document) ∧
      render (.negation (.comparison ⟨none, ["at"]⟩ .lt (.date t))) =
        render (.negation (.comparison ⟨none, ["at"]⟩ .lt (.date u))) ∧
      render (.comparison ⟨none, ["at"]⟩ .lt (.date u)) =
        .ok "at:[* TO 2016-12-31T23:59:60.999Z\x7d" ∧
      Timestamp.read .strict "2016-12-31T23:59:60.999Z" = some bound ∧
      bound.instant = ⟨1060315199, 60, 999000000⟩ := by
  let t : DateTime := ⟨⟨⟨2016, 12, 31⟩, 1439, 60, 999900000⟩, 0, by decide⟩
  let u : DateTime := ⟨⟨⟨2017, 1, 1⟩, 119, 60, 999900000⟩, 120, by decide⟩
  have ht : Operand.ofLiteral "2016-12-31T23:59:60.9999Z" = .date t := by decide +kernel
  have hu : Operand.ofLiteral "2017-01-01T01:59:60.9999+02:00" = .date u := by decide +kernel
  have hinstant : t.instant = u.instant := by decide
  have hagrees : (Expression.negation (.comparison ⟨none, ["at"]⟩ .lt (.date t))).agrees
      (.negation (.comparison ⟨none, ["at"]⟩ .lt (.date u))) = true := by decide
  have hanswer := (dates_by_instant.1 _ _ t u ht hu hinstant ⟨none, ["at"]⟩ .lt).2 {}
  rw [ht, hu] at hanswer
  have hquery := (dates_by_instant.2.1 _ _ hagrees).1
  obtain ⟨hrender, bound, hread, hbound⟩ := dates_by_instant.2.2 _ u hu (by decide) (by decide)
    ⟨none, ["at"]⟩ .lt (by decide)
  rw [hu] at hrender
  have htext : Timestamp.utcText u = "2016-12-31T23:59:60.999Z" := by decide +kernel
  rw [htext] at hrender hread
  refine ⟨t, u, bound, ht, hu, hinstant, by decide, by decide, by decide, hagrees, hanswer, hquery,
    ?_, hread, ?_⟩
  · rw [hrender]
    rfl
  · rw [hbound]
    decide

end Scim
