import Scim.Filter.Reading
import Scim.Proofs.Number.Numeral

/-!
The grammar of filters over lexemes, with the expression that each derivation stands for. What a word
is depends on its place alone: names of attributes may be spelled like keywords, except for `not`.
-/
namespace Scim.Filter

/-- A word names an attribute. `not` is a keyword wherever an attribute may stand. -/
def Names (word : String) (path : AttributePath) : Prop :=
  word ≠ "not" ∧ AttributePath.parse word = .ok path

/-- A lexeme at a value's place and the test that it completes. -/
inductive Valued (path : AttributePath) (op : CompareOp) : Lexeme → Expression → Prop
  | quoted (text : String) :
      Valued path op (.quoted text) (.comparison path op (Operand.ofLiteral text))
  | null : Valued path op (.word "null") (.null path op)
  | true : Valued path op (.word "true") (.comparison path op (.boolean Bool.true))
  | false : Valued path op (.word "false") (.comparison path op (.boolean Bool.false))
  | number {word : String} {n : Numeral} {value : Decimal} (hn : Numeral.Spelled word.toList n)
      (hvalue : Decimal.ofNumeral? n = some value) :
      Valued path op (.word word) (.comparison path op (.number value))

mutual

inductive Term : List Lexeme → Expression → Prop
  | group {w : List Lexeme} {e : Expression} (h : Sentence w e) :
      Term (.openParen :: (w ++ [.closeParen])) e
  | negation {w : List Lexeme} {e : Expression} (h : Sentence w e) :
      Term (.word "not" :: .openParen :: (w ++ [.closeParen])) (.negation e)
  | values {word : String} {path : AttributePath} {w : List Lexeme} {e : Expression}
      (hword : Names word path) (h : Sentence w e) :
      Term (.word word :: .openBracket :: (w ++ [.closeBracket])) (.grouping path e)
  | present {word : String} {path : AttributePath} (hword : Names word path) :
      Term [.word word, .word "pr"] (.present path)
  | comparison {word : String} {path : AttributePath} {op : CompareOp} {value : Lexeme}
      {e : Expression} (hword : Names word path) (hop : op ≠ .pr)
      (hvalue : Valued path op value e) :
      Term [.word word, .word op.keyword, value] e

inductive Further : List Lexeme → List (LogicalOp × Expression) → Prop
  | nil : Further [] []
  | cons {op : LogicalOp} {v w : List Lexeme} {term : Expression}
      {rest : List (LogicalOp × Expression)} (hterm : Term v term) (hrest : Further w rest) :
      Further (.word op.keyword :: (v ++ w)) ((op, term) :: rest)

/-- A level of terms and keywords stands for the expression that the terms combine to. -/
inductive Sentence : List Lexeme → Expression → Prop
  | level {v w : List Lexeme} {first : Expression} {rest : List (LogicalOp × Expression)}
      (hfirst : Term v first) (hrest : Further w rest) :
      Sentence (v ++ w) (combine Expression.logical first rest)

end

/-- A word completes a test exactly if the grammar says so. -/
theorem bareTerm_eq_ok_iff {path : AttributePath} {op : CompareOp} {word : String}
    {e : Expression} : bareTerm path op word = .ok e ↔ Valued path op (.word word) e := by
  constructor
  · intro h
    unfold bareTerm at h
    split at h
    · rename_i hword
      rw [hword, ← Except.ok.inj h]
      exact .null
    split at h
    · rename_i hword
      rw [hword, ← Except.ok.inj h]
      exact .true
    split at h
    · rename_i hword
      rw [hword, ← Except.ok.inj h]
      exact .false
    split at h
    · simp at h
    · rename_i n hn
      split at h
      · simp at h
      · rename_i value hvalue
        rw [← Except.ok.inj h]
        exact .number (Numeral.spelled_of_read hn) hvalue
  · intro h
    cases h with
    | null => rfl
    | true => rfl
    | false => rfl
    | number hn hvalue =>
      have hread := Numeral.read_of_spelled hn
      have hne : ∀ keyword : String, Numeral.read keyword.toList = none → word ≠ keyword := by
        rintro keyword hnone rfl
        simp [hread] at hnone
      simp only [bareTerm, hne "null" rfl, hne "true" rfl, hne "false" rfl, if_false, hread,
        hvalue]

end Scim.Filter
