import Scim.Filter.Evaluation
import Scim.Proofs.Filter.Canonical
import Scim.Proofs.Filter.Legality
import Scim.Proofs.Filter.Precedence
import Scim.Proofs.Number.Value

/-!
Filters that join their terms by `and` alone, and the truth of filters that agree. A text that joins
the texts of some terms is read as their conjunction, and the conjunction is true of a document where
every term is.
-/
namespace Scim

open Filter.Token

/-- Operands agree as numbers, as dates or by being the same. -/
theorem Operand.agrees_cases {operand other : Operand} (h : operand.agrees other = true) :
    operand = other ∨ (∃ a b, operand = number a ∧ other = number b ∧ a.value = b.value) ∨
      ∃ t u, operand = date t ∧ other = date u ∧ t.instant = u.instant := by
  cases operand with
  | text expected =>
    cases other with
    | text other => exact .inl (congrArg text (beq_iff_eq.1 h))
    | _ => simp [agrees] at h
  | number expected =>
    cases other with
    | number other =>
      have horder : expected.order other = .eq := beq_iff_eq.1 h
      rw [Decimal.order_eq_compare, compare_eq_iff_eq] at horder
      exact .inr (.inl ⟨expected, other, rfl, rfl, horder⟩)
    | _ => simp [agrees] at h
  | boolean expected =>
    cases other with
    | boolean other => exact .inl (congrArg boolean (beq_iff_eq.1 h))
    | _ => simp [agrees] at h
  | date expected =>
    cases other with
    | date other => exact .inr (.inr ⟨expected, other, rfl, rfl, beq_iff_eq.1 h⟩)
    | _ => simp [agrees] at h

/-- Operands that agree compare alike with every value. -/
theorem Operand.holds_of_agrees {expected other : Operand} (h : expected.agrees other = true)
    (op : CompareOp) (actual : Json) : expected.holds op actual = other.holds op actual := by
  obtain rfl | ⟨a, b, rfl, rfl, hvalue⟩ | ⟨t, u, rfl, rfl, hinstant⟩ := agrees_cases h
  · rfl
  · simp only [holds, compare?, Decimal.order_eq_compare, hvalue]
  · simp only [holds, compare?, DateTime.order, hinstant]

/-- Expressions that agree are true of the same documents. -/
theorem Config.holds_of_agrees (config : Config) {e other : Expression} (h : e.agrees other = true)
    (document : Json) : config.holds e document = config.holds other document := by
  induction e generalizing other document with
  | present path =>
    cases other with
    | present path' => simp_all [Expression.agrees]
    | _ => simp [Expression.agrees] at h
  | null path op =>
    cases other with
    | null path' op' => simp_all [Expression.agrees]
    | _ => simp [Expression.agrees] at h
  | comparison path op value =>
    cases other with
    | comparison path' op' value' =>
      simp only [Expression.agrees, Bool.and_eq_true, beq_iff_eq] at h
      obtain ⟨⟨rfl, rfl⟩, hvalue⟩ := h
      have hholds : value.holds op = value'.holds op := funext (Operand.holds_of_agrees hvalue op)
      rw [Config.holds, Config.holds, hholds]
    | _ => simp [Expression.agrees] at h
  | grouping parent filter ih =>
    cases other with
    | grouping parent' filter' =>
      simp only [Expression.agrees, Bool.and_eq_true, beq_iff_eq] at h
      obtain ⟨rfl, hfilter⟩ := h
      simp only [Config.holds, ih hfilter]
    | _ => simp [Expression.agrees] at h
  | logical op left right ihleft ihright =>
    cases other with
    | logical op' left' right' =>
      simp only [Expression.agrees, Bool.and_eq_true, beq_iff_eq] at h
      obtain ⟨⟨rfl, hleft⟩, hright⟩ := h
      cases op with
      | and => simp only [Config.holds, ihleft hleft, ihright hright]
      | or => simp only [Config.holds, ihleft hleft, ihright hright]
    | _ => simp [Expression.agrees] at h
  | negation filter ih =>
    cases other with
    | negation filter' => simp only [Config.holds, ih h]
    | _ => simp [Expression.agrees] at h

namespace Filter

variable {first : Expression} {rest : List Expression} {text : String} {texts : List String}

def conjunction (first : Expression) (rest : List Expression) : Expression :=
  foldRight Expression.logical .and first rest

/-- A conjunction is true where all its terms are. -/
theorem holds_conjunction (config : Config) (first : Expression) (rest : List Expression)
    (document : Json) : config.holds (conjunction first rest) document =
      (first :: rest).all fun term => config.holds term document := by
  rw [conjunction, map_foldRight (f := fun term => config.holds term document)
    (config.holds_logical document), foldRight_and, List.all_map, List.all_cons]
  rfl

theorem check_logical {left right : Expression} (hleft : left.check = .ok ())
    (hright : right.check = .ok ()) (op : LogicalOp) :
    (Expression.logical op left right).check = .ok () := by
  rw [Expression.check] at *
  simp only [Expression.checkWithin, hleft, hright]
  rfl

theorem check_conjunction (hfirst : first.check = .ok ())
    (hrest : ∀ term ∈ rest, term.check = .ok ()) : (conjunction first rest).check = .ok () :=
  foldRight_induction (P := fun term : Expression => term.check = .ok ())
    (fun _ _ hleft hright => check_logical hleft hright .and) hfirst hrest

/-- A text is read as a term, whatever stands around it. -/
def SpellsTerm (text : String) (term : Expression) : Prop :=
  ∃ lexemes, Scans text.toList lexemes ∧ Term lexemes term

/-- The terms of a conjunction are read one after the other. -/
theorem exists_further (hfirst : SpellsTerm text first)
    (hrest : List.Forall₂ SpellsTerm texts rest) :
    ∃ v w, Scans (" and ".intercalate (text :: texts)).toList (v ++ w) ∧ Term v first ∧
      Further w (rest.map fun term => (.and, term)) := by
  induction hrest generalizing text first with
  | nil =>
    obtain ⟨lexemes, hscans, hterm⟩ := hfirst
    exact ⟨lexemes, [], by simpa using hscans, hterm, .nil⟩
  | @cons next term texts rest hnext hrest ih =>
    obtain ⟨lexemes, hscans, hterm⟩ := hfirst
    obtain ⟨v, w, hlater, hnextTerm, hfurther⟩ := ih hnext
    have hthere : Further (.word LogicalOp.and.keyword :: (v ++ w))
        ((.and, term) :: rest.map fun term => (.and, term)) := .cons hnextTerm hfurther
    refine ⟨lexemes, _, ?_, hterm, hthere⟩
    have htext : " and ".intercalate (text :: next :: texts) =
        text ++ " " ++ LogicalOp.and.keyword ++ " " ++ " and ".intercalate (next :: texts) := by
      have hand : " and " = " " ++ LogicalOp.and.keyword ++ " " := rfl
      rw [String.intercalate_cons_cons, hand]
      simp only [String.append_assoc]
    rw [htext]
    exact hscans.around (LogicalOp.isWord_keyword .and) hlater

/-- Texts of terms with `and` between them are read as the conjunction of the terms. -/
theorem parse_conjunction (hfirst : SpellsTerm text first)
    (hrest : List.Forall₂ SpellsTerm texts rest) :
    parse (" and ".intercalate (text :: texts)) = .ok (conjunction first rest) := by
  obtain ⟨v, w, hscans, hterm, hfurther⟩ := exists_further hfirst hrest
  obtain ⟨tokens, htokenize, htokens⟩ := tokenize_of_scans hscans
  have hand : ∀ term ∈ rest.map fun term => (LogicalOp.and, term), term.1 = .and := by
    intro term hterm
    obtain ⟨_, -, rfl⟩ := List.mem_map.1 hterm
    rfl
  have hsentence := Sentence.level hterm hfurther
  rw [combine_of_all hand, List.map_map, ← htokens] at hsentence
  have hterms : rest.map (Prod.snd ∘ fun term => (LogicalOp.and, term)) = rest := List.map_id rest
  rw [hterms] at hsentence
  exact parse_of_sentence htokenize hsentence

end Filter

end Scim
