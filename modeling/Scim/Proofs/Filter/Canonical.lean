import Scim.Proofs.Attribute.Path
import Scim.Proofs.Filter.Combine
import Scim.Proofs.Filter.Layout
import Scim.Proofs.Filter.Lexemes
import Scim.Proofs.Filter.Recognition
import Scim.Proofs.Time.Timestamp

/-!
The canonical text of an expression that was read. Its parentheses make every logical operand a term
of its own, so the text has one derivation, and this derivation stands for the same expression. Main
statement: the canonical text reads back, and it is its own canonical text.
-/
namespace Scim

open Scim.Filter Scim.Filter.Token Text

/-- Quoted text is never a timestamp, and a number has a scale that its plain notation keeps. -/
def Operand.Readable : Operand → Prop
  | .text value => Timestamp.read .strict value = none
  | .number value => value.scale ≤ 9223372036854775807
  | _ => True

def AttributePath.Readable (path : AttributePath) : Prop :=
  Names path.text path ∧ IsWord path.text.toList

inductive Expression.Readable : Expression → Prop
  | present {path : AttributePath} (hpath : path.Readable) : Readable (.present path)
  | null {path : AttributePath} {op : CompareOp} (hpath : path.Readable) (hop : op ≠ .pr) :
      Readable (.null path op)
  | comparison {path : AttributePath} {op : CompareOp} {value : Operand}
      (hpath : path.Readable) (hop : op ≠ .pr) (hvalue : value.Readable) :
      Readable (.comparison path op value)
  | grouping {path : AttributePath} {filter : Expression} (hpath : path.Readable)
      (hfilter : Readable filter) : Readable (.grouping path filter)
  | logical (op : LogicalOp) {left right : Expression} (hleft : Readable left)
      (hright : Readable right) : Readable (.logical op left right)
  | negation {filter : Expression} (hfilter : Readable filter) : Readable (.negation filter)

theorem Operand.readable_ofLiteral (text : String) : (ofLiteral text).Readable := by
  unfold ofLiteral
  split
  · trivial
  · assumption

namespace Filter

theorem Names.readable {word : String} {path : AttributePath} (h : Names word path)
    (hword : IsWord word.toList) : path.Readable := by
  have htext := AttributePath.text_of_parse h.2
  rw [AttributePath.Readable, htext]
  exact ⟨h, hword⟩

theorem Valued.readable {path : AttributePath} {op : CompareOp} {value : Lexeme} {e : Expression}
    (h : Valued path op value e) (hpath : path.Readable) (hop : op ≠ .pr) : e.Readable := by
  cases h with
  | quoted text => exact .comparison hpath hop (Operand.readable_ofLiteral text)
  | null => exact .null hpath hop
  | true => exact .comparison hpath hop trivial
  | false => exact .comparison hpath hop trivial
  | number hn hvalue => exact .comparison hpath hop (Decimal.inRange_of_ofNumeral? hvalue).2

def WellSpelled (lexemes : List Lexeme) : Prop :=
  ∀ word : String, .word word ∈ lexemes → IsWord word.toList

theorem WellSpelled.of_subset {left right : List Lexeme} (h : WellSpelled right)
    (hsubset : left ⊆ right) : WellSpelled left :=
  fun word hword => h word (hsubset hword)

mutual

theorem readable_term {w : List Lexeme} {e : Expression} :
    Term w e → WellSpelled w → e.Readable
  | .group h, hw => readable_sentence h (hw.of_subset fun _ hmem => by simp [hmem])
  | .negation h, hw => .negation (readable_sentence h (hw.of_subset fun _ hmem => by simp [hmem]))
  | .values hword h, hw =>
    .grouping (hword.readable (hw _ List.mem_cons_self))
      (readable_sentence h (hw.of_subset fun _ hmem => by simp [hmem]))
  | .present hword, hw => .present (hword.readable (hw _ List.mem_cons_self))
  | .comparison hword hop hvalue, hw => hvalue.readable (hword.readable (hw _ List.mem_cons_self)) hop

theorem readable_further {w : List Lexeme} {rest : List (LogicalOp × Expression)} :
    Further w rest → WellSpelled w → ∀ term ∈ rest, term.2.Readable
  | .nil, _, term, hterm => by simp at hterm
  | .cons hfirst hrest, hw, term, hterm => by
    rcases List.mem_cons.1 hterm with rfl | hterm
    · exact readable_term hfirst (hw.of_subset fun _ hmem => by simp [hmem])
    · exact readable_further hrest (hw.of_subset fun _ hmem => by simp [hmem]) term hterm

theorem readable_sentence {w : List Lexeme} {e : Expression} :
    Sentence w e → WellSpelled w → e.Readable
  | .level hfirst hrest, hw => by
    have hlevel := readable_further hrest (hw.of_subset fun _ hmem => by simp [hmem])
    exact combine_induction (fun op _ _ hleft hright => .logical op hleft hright)
      (readable_term hfirst (hw.of_subset fun _ hmem => by simp [hmem])) hlevel

end

/-- The words of a text consist of word characters. -/
theorem wellSpelled_of_tokenize {text : String} {tokens : List Token}
    (h : tokenize text = .ok tokens) : WellSpelled (tokens.map Token.lexeme) := by
  obtain ⟨layout, -, rfl⟩ := tokenize_eq_ok_iff.1 h
  intro word hword
  rw [Layout.tokens, map_lexeme_tokensFrom] at hword
  obtain ⟨piece, -, hlexeme⟩ := List.mem_map.1 hword
  have hsource := piece.source_lexeme
  rw [hlexeme] at hsource
  exact hsource.isWord

/-- Paths and operands that have been read can be read again. -/
theorem readable_of_parse {text : String} {e : Expression} (h : parse text = .ok e) :
    e.Readable := by
  obtain ⟨tokens, htokens, hsentence⟩ := sentence_of_parse h
  exact readable_sentence hsentence (wellSpelled_of_tokenize htokens)

end Filter

theorem Operand.scans_literal {value : Operand} (h : value.Readable) :
    Scans value.literal.toList [value.lexeme] := by
  cases value with
  | text value => exact .quoted value
  | number value => exact .word (Decimal.isWord_text h)
  | boolean value =>
    cases value
    · exact .word (isWord_of_all rfl rfl)
    · exact .word (isWord_of_all rfl rfl)
  | date value => exact .quoted _

namespace Expression

theorem scans_operandText (operand : Expression) {text : String} {lexemes : List Lexeme}
    (h : Scans text.toList lexemes) :
    Scans (operandText operand text).toList (operandLexemes operand lexemes) := by
  unfold operandText operandLexemes
  split
  · rw [String.toList_append, String.toList_append]
    exact h.grouped
  · exact h

/-- The canonical text is scanned as the lexemes of the expression. -/
theorem scans_text {e : Expression} (h : e.Readable) : Scans e.text.toList e.lexemes := by
  induction h with
  | present hpath =>
    have hpr : Scans "pr".toList [.word "pr"] := .word (isWord_of_all rfl rfl)
    simp only [text, String.toList_append]
    exact (Scans.word hpath.2).spaced hpr
  | @null path op hpath hop =>
    have hnull : Scans "null".toList [.word "null"] := .word (isWord_of_all rfl rfl)
    simp only [text, String.toList_append, List.append_assoc]
    exact (Scans.word hpath.2).spaced ((Scans.word op.isWord_keyword).spaced hnull)
  | @comparison path op value hpath hop hvalue =>
    exact (Scans.word hpath.2).around op.isWord_keyword (Operand.scans_literal hvalue)
  | @grouping path filter hpath hfilter ih =>
    have hinner : Scans ('[' :: (filter.text.toList ++ [']']))
        (.openBracket :: (filter.lexemes ++ [.closeBracket])) :=
      .bracket rfl (by decide) (by decide) (ih.closed rfl (by decide) (by decide))
    simp only [text, String.toList_append, List.append_assoc]
    exact (Scans.word hpath.2).append hinner (stops_cons (by decide) _)
  | @logical op left right hleft hright ihleft ihright =>
    exact (scans_operandText left ihleft).around op.isWord_keyword (scans_operandText right ihright)
  | @negation filter hfilter ih =>
    have hnot : Scans "not".toList [.word "not"] := .word (isWord_of_all rfl rfl)
    simp only [text, String.toList_append, List.append_assoc]
    exact hnot.spaced ih.grouped

theorem isLogical_of_agrees {e e' : Expression} (h : e.agrees e' = true) :
    e'.isLogical = e.isLogical := by
  cases e <;> cases e' <;> first | rfl | simp [agrees] at h

end Expression

theorem Filter.Term.sentence {w : List Lexeme} {e : Expression} (h : Term w e) : Sentence w e := by
  have hlevel := Sentence.level h .nil
  rwa [List.append_nil] at hlevel

/-- The literal of a value stands for a value that agrees with it and has the same literal. -/
theorem Operand.exists_valued {value : Operand} (h : value.Readable) (path : AttributePath)
    (op : CompareOp) :
    ∃ value', Valued path op value.lexeme (.comparison path op value') ∧
      value.agrees value' = true ∧ value'.literal = value.literal := by
  cases value with
  | text value =>
    have hnone : Timestamp.read .strict value = none := h
    have hvalued : Valued path op (.quoted value) (.comparison path op (ofLiteral value)) :=
      .quoted value
    have hliteral : ofLiteral value = text value := by simp only [ofLiteral, hnone]
    rw [hliteral] at hvalued
    exact ⟨text value, hvalued, by simp [agrees], rfl⟩
  | number value =>
    obtain ⟨value', hread, horder, htext⟩ := Decimal.exists_read_text h
    obtain ⟨numeral, hnumeral, hvalue⟩ := Option.bind_eq_some_iff.1 hread
    exact ⟨number value', .number (Numeral.spelled_of_read hnumeral) hvalue,
      by simp [agrees, horder], htext⟩
  | boolean value =>
    refine ⟨boolean value, ?_, by simp [agrees], rfl⟩
    cases value
    · exact .false
    · exact .true
  | date value =>
    have hvalued : Valued path op (.quoted (Timestamp.localText value))
        (.comparison path op (ofLiteral (Timestamp.localText value))) := .quoted _
    have hliteral : ofLiteral (Timestamp.localText value) = date value := by
      simp only [ofLiteral, Timestamp.read_localText]
    rw [hliteral] at hvalued
    exact ⟨date value, hvalued, by simp [agrees], rfl⟩

namespace Expression

theorem term_of_sentence {e e' : Expression} (hlogical : e.isLogical = true)
    (h : Sentence e.lexemes e') : Term (operandLexemes e e.lexemes) e' := by
  rw [operandLexemes, if_pos hlogical]
  exact .group h

/-- These lexemes are a sentence, for an expression that agrees and has the same text. -/
theorem exists_sentence {e : Expression} (h : e.Readable) :
    ∃ e', Sentence e.lexemes e' ∧ Term (operandLexemes e e.lexemes) e' ∧
      e.agrees e' = true ∧ e'.text = e.text := by
  induction h with
  | @present path hpath =>
    have hterm : Term (present path).lexemes (present path) := .present hpath.1
    exact ⟨present path, hterm.sentence, hterm, by simp [agrees], rfl⟩
  | @null path op hpath hop =>
    have hterm : Term (null path op).lexemes (null path op) := .comparison hpath.1 hop .null
    exact ⟨null path op, hterm.sentence, hterm, by simp [agrees], rfl⟩
  | @comparison path op value hpath hop hvalue =>
    obtain ⟨value', hvalued, hagrees, hliteral⟩ := Operand.exists_valued hvalue path op
    have hterm : Term (comparison path op value).lexemes (comparison path op value') :=
      .comparison hpath.1 hop hvalued
    exact ⟨_, hterm.sentence, hterm, by simp [agrees, hagrees], by simp only [text, hliteral]⟩
  | @grouping path filter hpath hfilter ih =>
    obtain ⟨filter', hsentence, -, hagrees, htext⟩ := ih
    have hterm : Term (grouping path filter).lexemes (grouping path filter') :=
      .values hpath.1 hsentence
    exact ⟨_, hterm.sentence, hterm, by simp [agrees, hagrees], by simp only [text, htext]⟩
  | @logical op left right hleft hright ihleft ihright =>
    obtain ⟨left', -, hleft', hagreesLeft, htextLeft⟩ := ihleft
    obtain ⟨right', -, hright', hagreesRight, htextRight⟩ := ihright
    have hsentence : Sentence (logical op left right).lexemes (logical op left' right') := by
      have hfurther : Further (.word op.keyword :: (operandLexemes right right.lexemes ++ []))
          [(op, right')] := .cons hright' .nil
      rw [List.append_nil] at hfurther
      exact .level hleft' hfurther
    have hterm := term_of_sentence rfl hsentence
    refine ⟨_, hsentence, hterm, by simp [agrees, hagreesLeft, hagreesRight], ?_⟩
    simp only [text, operandText, htextLeft, htextRight, isLogical_of_agrees hagreesLeft,
      isLogical_of_agrees hagreesRight]
  | @negation filter hfilter ih =>
    obtain ⟨filter', hsentence, -, hagrees, htext⟩ := ih
    have hterm : Term (negation filter).lexemes (negation filter') := .negation hsentence
    exact ⟨_, hterm.sentence, hterm, by simp [agrees, hagrees], by simp only [text, htext]⟩

end Expression

theorem Filter.tokenize_of_scans {text : String} {lexemes : List Lexeme}
    (h : Scans text.toList lexemes) :
    ∃ tokens, tokenize text = .ok tokens ∧ tokens.map Token.lexeme = lexemes := by
  obtain ⟨tokens, htokens, hscan⟩ := h 0 [] (stops_nil isWordChar)
  refine ⟨tokens, ?_, htokens⟩
  rw [List.append_nil] at hscan
  have hend : scan .between (0 + byteCount text.toList) [] = .ok [] := rfl
  rw [hend] at hscan
  simp only [tokenize, hscan, Except.map, List.append_nil]

/-- The canonical text of every filter reads as an expression that agrees with it, and it is the
canonical text of that expression too. -/
theorem Filter.exists_parse_canonical {text : String} {e : Expression} (h : parse text = .ok e) :
    ∃ e', parse e.text = .ok e' ∧ e.agrees e' = true ∧ e'.text = e.text := by
  have hreadable := readable_of_parse h
  obtain ⟨tokens, htokenize, htokens⟩ := tokenize_of_scans (Expression.scans_text hreadable)
  obtain ⟨e', hsentence, -, hagrees, htext⟩ := Expression.exists_sentence hreadable
  rw [← htokens] at hsentence
  exact ⟨e', parse_of_sentence htokenize hsentence, hagrees, htext⟩

/-- Mixed keywords, an escaped quote, an exponent and a timestamp below one negation. -/
theorem Filter.exists_parse_canonical_mixed :
    ∃ e, parse "not (m[t eq \"a\\\"b\" and v pr]) or n gt 1.50e3 and d ge \"2011-05-13T04:42:34.5Z\"" =
        .ok e ∧
      ∃ e', parse e.text = .ok e' ∧ e.agrees e' = true ∧ e'.text = e.text := by
  have h : parse
      "not (m[t eq \"a\\\"b\" and v pr]) or n gt 1.50e3 and d ge \"2011-05-13T04:42:34.5Z\"" =
      .ok (.logical .or
        (.negation (.grouping ⟨none, ["m"]⟩
          (.logical .and (.comparison ⟨none, ["t"]⟩ .eq (.text "a\"b")) (.present ⟨none, ["v"]⟩))))
        (.logical .and (.comparison ⟨none, ["n"]⟩ .gt (.number ⟨150, -1⟩))
          (.comparison ⟨none, ["d"]⟩ .ge
            (.date ⟨⟨⟨2011, 5, 13⟩, 282, 34, 500000000⟩, 0, by decide⟩)))) := by rfl
  exact ⟨_, h, exists_parse_canonical h⟩

end Scim
