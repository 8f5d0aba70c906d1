import Scim.Proofs.Filter.Conjunction
import Scim.Proofs.Filter.Recasing
import Scim.Proofs.Number.Denotation

/-!
Filters see numbers and not their spellings. A literal of a filter and a number of a document are
compared as the rational numbers that they denote. So a filter whose literals are spelled in another
way is read as a filter that agrees with it, and it answers alike on a document whose numbers are
spelled in another way.
-/
namespace Scim

open Scim.Filter

/-- The same lexeme, or two literals that denote one number. -/
inductive Filter.Lexeme.Respelled : Lexeme → Lexeme → Prop
  | same (lexeme : Lexeme) : Respelled lexeme lexeme
  | number {word other : String} {value : ℚ} (hword : Denotes word value)
      (hother : Denotes other value) : Respelled (.word word) (.word other)

/-- The same document up to the spelling of the numbers in it. -/
inductive Json.Respelled : Json → Json → Prop
  | null : Respelled .null .null
  | bool (value : Bool) : Respelled (.bool value) (.bool value)
  | num (spelling : String) : Respelled (.num spelling) (.num spelling)
  | number {spelling other : String} {value : ℚ} (hspelling : Denotes spelling value)
      (hother : Denotes other value) : Respelled (.num spelling) (.num other)
  | str (text : String) : Respelled (.str text) (.str text)
  | arr {items others : List Json} (hitems : List.Forall₂ Respelled items others) :
      Respelled (.arr items) (.arr others)
  | obj {members others : List (String × Json)}
      (hkeys : Members.keys members = Members.keys others)
      (hvalues : List.Forall₂ Respelled (members.map Prod.snd) (others.map Prod.snd)) :
      Respelled (.obj members) (.obj others)

section Documents

variable {config : Config} {document document' value other : Json}

theorem Json.Respelled.elements (h : value.Respelled other) :
    List.Forall₂ Json.Respelled value.elements other.elements := by
  cases h with
  | arr hitems => exact hitems
  | null => exact .cons .null .nil
  | bool value => exact .cons (.bool value) .nil
  | num spelling => exact .cons (.num spelling) .nil
  | number hspelling hother => exact .cons (.number hspelling hother) .nil
  | str text => exact .cons (.str text) .nil
  | obj hkeys hvalues => exact .cons (.obj hkeys hvalues) .nil

theorem rel_find? {α : Type} {R : α → α → Prop} {members others : List (String × α)}
    (h : List.Forall₂ (fun member other => member.1 = other.1 ∧ R member.2 other.2) members others)
    (test : String → Bool) :
    Option.Rel (fun member other => member.1 = other.1 ∧ R member.2 other.2)
      (members.find? fun member => test member.1) (others.find? fun member => test member.1) := by
  induction h with
  | nil => exact .none
  | @cons member other members others hmember _ ih =>
    rw [List.find?_cons, List.find?_cons, ← hmember.1]
    cases test member.1 with
    | true => exact .some hmember
    | false => exact ih

theorem rel_or {α β : Type} {R : α → β → Prop} {a c : Option α} {b d : Option β}
    (hfirst : Option.Rel R a b) (hsecond : Option.Rel R c d) : Option.Rel R (a.or c) (b.or d) := by
  cases hfirst with
  | some hfirst => exact .some hfirst
  | none => exact hsecond

theorem Config.rel_member? {members others : List (String × Json)}
    (h : List.Forall₂ (fun member other => member.1 = other.1 ∧ member.2.Respelled other.2)
      members others) (name : String) :
    Option.Rel (fun member other => member.1 = other.1 ∧ member.2.Respelled other.2)
      (config.member? members name) (config.member? others name) := by
  refine rel_or (rel_find? h (· == name)) ?_
  split
  · exact .none
  · exact rel_find? h fun key => Text.sameFolded key name

theorem Config.rel_child?_of_respelled (h : value.Respelled other) (name : String) :
    Option.Rel Json.Respelled (config.child? value name) (config.child? other name) := by
  cases h with
  | @obj members others hkeys hvalues =>
    have hfound := config.rel_member? (Json.forall₂_of_keys_eq hkeys hvalues) name
    simp only [child?, Json.members?, Option.bind_some]
    generalize config.member? members name = found at hfound
    generalize config.member? others name = found' at hfound
    cases hfound with
    | some hmember => exact .some hmember.2
    | none => exact .none
  | _ => exact .none

/-- A path resolves to the same values up to the spelling of numbers. -/
theorem Config.forall₂_resolve_of_respelled (h : document.Respelled document')
    (path : AttributePath) : List.Forall₂ Json.Respelled
      (config.resolve document path) (config.resolve document' path) := by
  have hnames : List.Forall₂ Eq (config.names path) (config.names path) := List.forall₂_refl _
  refine forall₂_resolve_of (fun _ _ hnode => hnode.elements) ?_ hnames h
  rintro node node' name _ hnode rfl
  exact rel_child?_of_respelled hnode name

/-- How a number of the document is spelled does not count in a comparison. -/
theorem Operand.holds_of_respelled (h : value.Respelled other) (op : CompareOp) (operand : Operand) :
    operand.holds op value = operand.holds op other := by
  cases h with
  | number hspelling hother =>
    cases operand with
    | number operand =>
      obtain ⟨d, hread, hvalue⟩ := denotes_iff_read.1 hspelling
      obtain ⟨d', hread', hvalue'⟩ := denotes_iff_read.1 hother
      simp only [holds, compare?, Json.decimal?, hread, hread', Option.map_some,
        Decimal.order_eq_compare, hvalue, hvalue']
    | _ => rfl
  | arr => cases operand <;> rfl
  | obj => cases operand <;> rfl
  | _ => rfl

theorem Config.hasValue_of_respelled (h : document.Respelled document') (path : AttributePath) :
    config.hasValue document path = config.hasValue document' path := by
  apply any_eq_of_forall₂ (forall₂_resolve_of_respelled h path)
  intro value other hvalue
  cases hvalue <;> rfl

/-- An expression is true of a document whatever the spelling of the numbers in it. -/
theorem Config.holds_of_respelled (h : document.Respelled document') (e : Expression) :
    config.holds e document = config.holds e document' := by
  induction e generalizing document document' with
  | present path => exact hasValue_of_respelled h path
  | null path op => simp only [holds, hasValue_of_respelled h]
  | comparison path op operand =>
    apply any_eq_of_forall₂ (forall₂_resolve_of_respelled h path)
    intro value other hvalue
    exact Operand.holds_of_respelled hvalue op operand
  | grouping parent filter ih =>
    apply any_eq_of_forall₂ (forall₂_resolve_of_respelled h parent)
    intro node node' hnode
    exact ih hnode
  | logical op left right ihleft ihright =>
    cases op with
    | and => simp only [holds, ihleft h, ihright h]
    | or => simp only [holds, ihleft h, ihright h]
  | negation filter ih => simp only [holds, ih h]

end Documents

theorem Operand.type_of_agrees {operand other : Operand} (h : operand.agrees other = true) :
    operand.type = other.type := by
  obtain rfl | ⟨a, b, rfl, rfl, -⟩ | ⟨t, u, rfl, rfl, -⟩ := agrees_cases h
  · rfl
  · rfl
  · rfl

theorem Operand.agrees_self (operand : Operand) : operand.agrees operand = true := by
  cases operand <;> simp [agrees, Decimal.order_self]

theorem Expression.agrees_self (e : Expression) : e.agrees e = true := by
  induction e with
  | comparison path op operand => simp [agrees, Operand.agrees_self]
  | _ => simp_all [agrees]

/-- Expressions that agree are legal alike. -/
theorem Expression.checkWithin_of_agrees {e other : Expression} (h : e.agrees other = true)
    (parent : Option AttributePath) : e.checkWithin parent = other.checkWithin parent := by
  fun_induction agrees e other generalizing parent with
  | case1 p q => rfl
  | case2 p op q oq => simp_all [checkWithin]
  | case3 p op value q oq other =>
    simp only [Bool.and_eq_true, beq_iff_eq] at h
    obtain ⟨⟨rfl, rfl⟩, hvalue⟩ := h
    rw [checkWithin, checkWithin, Operand.type_of_agrees hvalue]
  | case4 p filter q other ih =>
    simp only [Bool.and_eq_true, beq_iff_eq] at h
    obtain ⟨rfl, hfilter⟩ := h
    exact ih hfilter _
  | case5 op left right oq left' right' ihleft ihright =>
    simp only [Bool.and_eq_true, beq_iff_eq] at h
    obtain ⟨⟨rfl, hleft⟩, hright⟩ := h
    rw [checkWithin, checkWithin, ihleft hleft, ihright hright]
  | case6 filter other ih => exact ih h parent
  | case7 => simp at h

namespace Filter

variable {path : AttributePath} {op : CompareOp} {lexeme other closer : Lexeme} {word : String}
  {e : Expression} {w others : List Lexeme}

/-- Only a literal can be spelled in another way. -/
theorem Lexeme.Respelled.eq (h : other.Respelled lexeme)
    (hlexeme : ∀ word value, Denotes word value → lexeme ≠ .word word) : other = lexeme := by
  cases h with
  | same => rfl
  | number _ hword => exact absurd rfl (hlexeme _ _ hword)

theorem Lexeme.Respelled.eq_word (h : other.Respelled (.word word))
    (hword : AttributePath.LeadsName word) : other = .word word := by
  refine h.eq fun literal value hvalue heq => ?_
  rw [← Lexeme.word.inj heq] at hvalue
  exact not_denotes_of_leadsName hword hvalue

theorem Lexeme.Respelled.eq_name (h : other.Respelled (.word word)) (hword : Names word path) :
    other = .word word :=
  h.eq_word (AttributePath.leadsName_text_of_parse hword.2)

theorem leadsName_compareOp (op : CompareOp) : AttributePath.LeadsName op.keyword := by
  cases op <;> exact ⟨_, _, rfl, rfl⟩

theorem leadsName_logicalOp (op : LogicalOp) : AttributePath.LeadsName op.keyword := by
  cases op <;> exact ⟨_, _, rfl, rfl⟩

/-- The words at a value's place that stand for a number are those that are read as one. -/
theorem valued_number_iff {operand : Decimal} :
    Valued path op (.word word) (.comparison path op (.number operand)) ↔
      Decimal.read word = some operand := by
  constructor
  · intro h
    cases h with
    | number hn hvalue => rw [Decimal.read, Numeral.read_of_spelled hn, Option.bind_some, hvalue]
  · intro h
    obtain ⟨n, hn, hvalue⟩ := Option.bind_eq_some_iff.1 h
    exact .number (Numeral.spelled_of_read hn) hvalue

/-- A literal spelled otherwise completes a test that agrees. -/
theorem exists_valued_of_respelled (h : Valued path op lexeme e) (hother : other.Respelled lexeme) :
    ∃ e', Valued path op other e' ∧ e.agrees e' = true := by
  cases hother with
  | same => exact ⟨e, h, e.agrees_self⟩
  | @number literal word number hother hword =>
    cases h with
    | null => exact absurd hword (not_denotes_of_leadsName ⟨'n', _, rfl, rfl⟩)
    | true => exact absurd hword (not_denotes_of_leadsName ⟨'t', _, rfl, rfl⟩)
    | false => exact absurd hword (not_denotes_of_leadsName ⟨'f', _, rfl, rfl⟩)
    | @number _ n operand hn hvalue =>
      have hvalued : Valued path op (.word word) (.comparison path op (.number operand)) :=
        .number hn hvalue
      obtain ⟨found, hread, hnumber⟩ := denotes_iff_read.1 hword
      obtain ⟨operand', hread', hnumber'⟩ := denotes_iff_read.1 hother
      obtain rfl := Option.some.inj ((valued_number_iff.1 hvalued).symm.trans hread)
      have horder : operand.order operand' = .eq := by
        rw [Decimal.order_eq_compare, hnumber, hnumber', compare_eq_iff_eq]
      exact ⟨_, valued_number_iff.2 hread', by simp [Expression.agrees, Operand.agrees, horder]⟩

theorem forall₂_append_cases {α β : Type} {R : α → β → Prop} {l : List α} {u v : List β}
    (h : List.Forall₂ R l (u ++ v)) :
    ∃ s t, l = s ++ t ∧ List.Forall₂ R s u ∧ List.Forall₂ R t v :=
  ⟨_, _, (List.take_append_drop u.length l).symm, List.forall₂_take_append l u v h,
    List.forall₂_drop_append l u v h⟩

/-- The lexemes inside a bracket are respelled, and the bracket is closed as before. -/
theorem forall₂_closed_cases (h : List.Forall₂ Lexeme.Respelled others (w ++ [closer]))
    (hcloser : closer.isWord = false) :
    ∃ inner, others = inner ++ [closer] ∧ List.Forall₂ Lexeme.Respelled inner w := by
  obtain ⟨inner, last, rfl, hinner, hlast⟩ := forall₂_append_cases h
  obtain ⟨_, _, hclose, hnil, rfl⟩ := List.forall₂_cons_right_iff.1 hlast
  obtain rfl := List.forall₂_nil_right_iff.1 hnil
  obtain rfl := hclose.eq fun word value _ heq => by simp [heq, Lexeme.isWord] at hcloser
  exact ⟨inner, rfl, hinner⟩

mutual

theorem exists_term_of_respelled {w : List Lexeme} {e : Expression} :
    Term w e → ∀ others, List.Forall₂ Lexeme.Respelled others w →
      ∃ e', Term others e' ∧ e.agrees e' = true
  | .group h, others, hothers => by
    obtain ⟨opener, rest, hopener, hrest, rfl⟩ := List.forall₂_cons_right_iff.1 hothers
    obtain rfl := hopener.eq (by simp)
    obtain ⟨inner, rfl, hinner⟩ := forall₂_closed_cases hrest rfl
    obtain ⟨e', hsentence, hagrees⟩ := exists_sentence_of_respelled h inner hinner
    exact ⟨e', .group hsentence, hagrees⟩
  | .negation h, others, hothers => by
    obtain ⟨keyword, opened, hkeyword, hopened, rfl⟩ := List.forall₂_cons_right_iff.1 hothers
    obtain ⟨opener, rest, hopener, hrest, rfl⟩ := List.forall₂_cons_right_iff.1 hopened
    obtain rfl := hkeyword.eq_word ⟨'n', _, rfl, rfl⟩
    obtain rfl := hopener.eq (by simp)
    obtain ⟨inner, rfl, hinner⟩ := forall₂_closed_cases hrest rfl
    obtain ⟨e', hsentence, hagrees⟩ := exists_sentence_of_respelled h inner hinner
    exact ⟨.negation e', .negation hsentence, hagrees⟩
  | .values hword h, others, hothers => by
    obtain ⟨name, opened, hname, hopened, rfl⟩ := List.forall₂_cons_right_iff.1 hothers
    obtain ⟨opener, rest, hopener, hrest, rfl⟩ := List.forall₂_cons_right_iff.1 hopened
    obtain rfl := hname.eq_name hword
    obtain rfl := hopener.eq (by simp)
    obtain ⟨inner, rfl, hinner⟩ := forall₂_closed_cases hrest rfl
    obtain ⟨e', hsentence, hagrees⟩ := exists_sentence_of_respelled h inner hinner
    exact ⟨.grouping _ e', .values hword hsentence, by simp [Expression.agrees, hagrees]⟩
  | .present hword, others, hothers => by
    obtain ⟨name, tested, hname, htested, rfl⟩ := List.forall₂_cons_right_iff.1 hothers
    obtain ⟨keyword, rest, hkeyword, hnil, rfl⟩ := List.forall₂_cons_right_iff.1 htested
    obtain rfl := List.forall₂_nil_right_iff.1 hnil
    obtain rfl := hname.eq_name hword
    obtain rfl := hkeyword.eq_word ⟨'p', _, rfl, rfl⟩
    exact ⟨_, .present hword, Expression.agrees_self _⟩
  | .comparison hword hop hvalue, others, hothers => by
    obtain ⟨name, compared, hname, hcompared, rfl⟩ := List.forall₂_cons_right_iff.1 hothers
    obtain ⟨keyword, valued, hkeyword, hvalued, rfl⟩ := List.forall₂_cons_right_iff.1 hcompared
    obtain ⟨value, rest, hlexeme, hnil, rfl⟩ := List.forall₂_cons_right_iff.1 hvalued
    obtain rfl := List.forall₂_nil_right_iff.1 hnil
    obtain rfl := hname.eq_name hword
    obtain rfl := hkeyword.eq_word (leadsName_compareOp _)
    obtain ⟨e', hvalued, hagrees⟩ := exists_valued_of_respelled hvalue hlexeme
    exact ⟨e', .comparison hword hop hvalued, hagrees⟩

theorem exists_further_of_respelled {w : List Lexeme} {rest : List (LogicalOp × Expression)} :
    Further w rest → ∀ others, List.Forall₂ Lexeme.Respelled others w →
      ∃ rest', Further others rest' ∧
        List.Forall₂ (fun term other => term.1 = other.1 ∧ term.2.agrees other.2 = true) rest rest'
  | .nil, others, hothers => by
    obtain rfl := List.forall₂_nil_right_iff.1 hothers
    exact ⟨[], .nil, .nil⟩
  | .cons hterm hrest, others, hothers => by
    obtain ⟨keyword, lexemes, hkeyword, hlexemes, rfl⟩ := List.forall₂_cons_right_iff.1 hothers
    obtain ⟨left, right, rfl, hleft, hright⟩ := forall₂_append_cases hlexemes
    obtain rfl := hkeyword.eq_word (leadsName_logicalOp _)
    obtain ⟨term', hterm', hagrees⟩ := exists_term_of_respelled hterm left hleft
    obtain ⟨rest', hrest', hfurther⟩ := exists_further_of_respelled hrest right hright
    exact ⟨_, .cons hterm' hrest', .cons ⟨rfl, hagrees⟩ hfurther⟩

/-- A sentence with its literals respelled is a sentence, and it stands for an expression that
agrees. -/
theorem exists_sentence_of_respelled {w : List Lexeme} {e : Expression} :
    Sentence w e → ∀ others, List.Forall₂ Lexeme.Respelled others w →
      ∃ e', Sentence others e' ∧ e.agrees e' = true
  | .level hfirst hrest, others, hothers => by
    obtain ⟨left, right, rfl, hleft, hright⟩ := forall₂_append_cases hothers
    obtain ⟨first', hfirst', hagrees⟩ := exists_term_of_respelled hfirst left hleft
    obtain ⟨rest', hrest', hfurther⟩ := exists_further_of_respelled hrest right hright
    refine ⟨_, .level hfirst' hrest', ?_⟩
    exact rel_combine (R := fun e e' : Expression => e.agrees e' = true)
      (fun op _ _ _ _ hleft hright => by simp [Expression.agrees, hleft, hright]) hagrees hfurther

end

/-- A text with its literals respelled is read as an expression that agrees. -/
theorem exists_parse_of_respelled {text text' : String} {tokens tokens' : List Token}
    (htokens : tokenize text = .ok tokens) (htokens' : tokenize text' = .ok tokens')
    (hrespelled : List.Forall₂ Lexeme.Respelled (tokens'.map Token.lexeme)
      (tokens.map Token.lexeme)) (h : parse text = .ok e) :
    ∃ e', parse text' = .ok e' ∧ e.agrees e' = true := by
  obtain ⟨found, hfound, hsentence⟩ := sentence_of_parse h
  obtain rfl := Except.ok.inj (htokens.symm.trans hfound)
  obtain ⟨e', hsentence', hagrees⟩ := exists_sentence_of_respelled hsentence _ hrespelled
  exact ⟨e', parse_of_sentence htokens' hsentence', hagrees⟩

/-- The words that are read as numbers denote the numbers that they are compared as. -/
theorem denotes_of_bareTerm {operand : Decimal}
    (h : bareTerm path op word = .ok (.comparison path op (.number operand))) :
    Denotes word operand.value :=
  denotes_iff_read.2 ⟨operand, valued_number_iff.1 (bareTerm_eq_ok_iff.1 h), rfl⟩

end Filter

/-- A number of the document compares with a literal as the numbers do that they denote. -/
theorem Operand.exists_compare? {spelling : String} {actual : ℚ} (h : Denotes spelling actual)
    (op : CompareOp) (operand : Decimal) :
    ∃ answer, compare? op (number operand) (.num spelling) = some answer ∧
      (answer = true ↔ op.Relates actual operand.value) := by
  obtain ⟨d, hread, rfl⟩ := denotes_iff_read.1 h
  refine ⟨op.accepts (compare d.value operand.value), ?_, op.accepts_compare_iff _ _⟩
  rw [compare?, Json.decimal?, hread, Option.map_some, Decimal.order_eq_compare]

theorem Operand.holds_number_iff {op : CompareOp} {operand : Decimal} {value : Json} :
    (number operand).holds op value = true ↔ ∃ spelling actual, value = .num spelling ∧
      Denotes spelling actual ∧ op.Relates actual operand.value := by
  constructor
  · intro h
    cases value with
    | num spelling =>
      cases hread : Decimal.read spelling with
      | none => simp [holds, compare?, Json.decimal?, hread] at h
      | some d =>
        have hdenotes := denotes_iff_read.2 ⟨d, hread, rfl⟩
        obtain ⟨answer, hanswer, hrelates⟩ := exists_compare? hdenotes op operand
        rw [holds, hanswer, Option.getD_some] at h
        exact ⟨spelling, d.value, rfl, hdenotes, hrelates.1 h⟩
    | _ => simp [holds, compare?, Json.decimal?] at h
  · rintro ⟨spelling, actual, rfl, hdenotes, hrelates⟩
    obtain ⟨answer, hanswer, hiff⟩ := exists_compare? hdenotes op operand
    rw [holds, hanswer, Option.getD_some]
    exact hiff.2 hrelates

theorem Config.exists_accepts_number (config : Config) {path : AttributePath} {op : CompareOp}
    (hop : op.supports .number = true) (operand : Decimal) (document : Json) :
    ∃ answer, config.accepts (.comparison path op (.number operand)) document = .ok answer ∧
      (answer = true ↔ ∃ spelling actual, .num spelling ∈ config.resolve document path ∧
        Denotes spelling actual ∧ op.Relates actual operand.value) := by
  have hcheck : (Expression.comparison path op (.number operand)).check = .ok () := if_pos hop
  refine ⟨(config.resolve document path).any ((Operand.number operand).holds op), ?_, ?_⟩
  · rw [accepts, hcheck]
    rfl
  · simp only [List.any_eq_true, Operand.holds_number_iff]
    constructor
    · rintro ⟨_, hmem, spelling, actual, rfl, hdenotes, hrelates⟩
      exact ⟨spelling, actual, hmem, hdenotes, hrelates⟩
    · rintro ⟨spelling, actual, hmem, hdenotes, hrelates⟩
      exact ⟨_, hmem, spelling, actual, rfl, hdenotes, hrelates⟩

/-- Expressions that agree answer alike, also where they are illegal. -/
theorem Config.accepts_eq_of_agrees (config : Config) {e e' : Expression}
    (h : e.agrees e' = true) (document : Json) :
    config.accepts e document = config.accepts e' document := by
  rw [accepts, accepts, Expression.check, Expression.check, Expression.checkWithin_of_agrees h,
    config.holds_of_agrees h]

theorem Config.accepts_of_agrees (config : Config) {e e' : Expression} {document document' : Json}
    (he : e.agrees e' = true) (hdocument : document.Respelled document') :
    config.accepts e document = config.accepts e' document' := by
  rw [config.accepts_eq_of_agrees he, accepts, accepts, holds_of_respelled hdocument]

/-- A literal that a filter takes and a number in the range of decimals compare as the rational
numbers that they denote, and so a filter answers alike when its literals and the numbers of the
document are spelled in another way. -/
theorem Config.answers_by_value (config : Config) :
    (∀ path op word operand,
      bareTerm path op word = .ok (.comparison path op (.number operand)) →
      ∃ expected, Denotes word expected ∧
        (∀ spelling actual, Denotes spelling actual →
          ∃ answer, Operand.compare? op (.number operand) (.num spelling) = some answer ∧
            (answer = true ↔ op.Relates actual expected)) ∧
        (op.supports .number = true → ∀ document,
          ∃ answer, config.accepts (.comparison path op (.number operand)) document = .ok answer ∧
            (answer = true ↔ ∃ spelling actual, .num spelling ∈ config.resolve document path ∧
              Denotes spelling actual ∧ op.Relates actual expected))) ∧
    (∀ text text' tokens tokens' e, tokenize text = .ok tokens → tokenize text' = .ok tokens' →
      List.Forall₂ Lexeme.Respelled (tokens'.map Token.lexeme) (tokens.map Token.lexeme) →
      parse text = .ok e →
      ∃ e', parse text' = .ok e' ∧ ∀ document document', document.Respelled document' →
        config.accepts e document = config.accepts e' document') := by
  constructor
  · intro path op word operand h
    refine ⟨operand.value, denotes_of_bareTerm h, ?_, ?_⟩
    · intro spelling actual hdenotes
      exact Operand.exists_compare? hdenotes op operand
    · intro hop document
      exact config.exists_accepts_number hop operand document
  · intro text text' tokens tokens' e htokens htokens' hrespelled h
    obtain ⟨e', hparse, hagrees⟩ := exists_parse_of_respelled htokens htokens' hrespelled h
    exact ⟨e', hparse, fun document document' hdocument =>
      config.accepts_of_agrees hagrees hdocument⟩

/-- A literal with an exponent and one with a sign and needless zeros. -/
theorem Config.answers_by_value_sample : ∃ e e' document document',
    document = .obj [("n", .num "420e-1")] ∧ document' = .obj [("n", .num "42")] ∧
    parse "n ge 4.2e1" = .ok e ∧ parse "n ge +042.00" = .ok e' ∧
    Denotes "4.2e1" 42 ∧ Denotes "+042.00" 42 ∧ Denotes "420e-1" 42 ∧ Denotes "42" 42 ∧
    (∃ answer, accepts {} e document = .ok answer ∧ (answer = true ↔
      ∃ spelling actual, .num spelling ∈ resolve {} document ⟨none, ["n"]⟩ ∧
        Denotes spelling actual ∧ CompareOp.ge.Relates actual 42)) ∧
    accepts {} e document = accepts {} e' document' := by
  have hliteral : Denotes "4.2e1" 42 :=
    denotes_iff_read.2 ⟨⟨42, 0⟩, by decide +kernel, by norm_num [Decimal.value]⟩
  have hother : Denotes "+042.00" 42 :=
    denotes_iff_read.2 ⟨⟨4200, 2⟩, by decide +kernel, by norm_num [Decimal.value]⟩
  have hnumber : Denotes "420e-1" 42 :=
    denotes_iff_read.2 ⟨⟨420, 1⟩, by decide +kernel, by norm_num [Decimal.value]⟩
  have hplain : Denotes "42" 42 :=
    denotes_iff_read.2 ⟨⟨42, 0⟩, by decide +kernel, by norm_num [Decimal.value]⟩
  have hparse : parse "n ge 4.2e1" = .ok (.comparison ⟨none, ["n"]⟩ .ge (.number ⟨42, 0⟩)) := by
    decide +kernel
  have htokens : tokenize "n ge 4.2e1" =
      .ok [⟨.word "n", 0⟩, ⟨.word "ge", 2⟩, ⟨.word "4.2e1", 5⟩] := by decide +kernel
  have htokens' : tokenize "n ge +042.00" =
      .ok [⟨.word "n", 0⟩, ⟨.word "ge", 2⟩, ⟨.word "+042.00", 5⟩] := by decide +kernel
  have hdocument : Json.Respelled (.obj [("n", .num "420e-1")]) (.obj [("n", .num "42")]) :=
    .obj rfl (.cons (.number hnumber hplain) .nil)
  obtain ⟨hcompares, hrespelled⟩ := answers_by_value {}
  obtain ⟨e', hparse', haccepts⟩ := hrespelled _ _ _ _ _ htokens htokens'
    (.cons (.same _) (.cons (.same _) (.cons (.number hother hliteral) .nil))) hparse
  obtain ⟨expected, hexpected, -, hanswer⟩ :=
    hcompares ⟨none, ["n"]⟩ .ge "4.2e1" ⟨42, 0⟩ (by decide +kernel)
  obtain rfl := hexpected.unique hliteral
  exact ⟨_, e', _, _, rfl, rfl, hparse, hparse', hliteral, hother, hnumber, hplain,
    hanswer rfl _, haccepts _ _ hdocument⟩

end Scim
