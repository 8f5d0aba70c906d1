import Scim.Proofs.Query.Rendering
import Scim.Proofs.Time.Alphabet

/-!
The lines of queries. Fields, numbers, instants and connectives have no white space but plain blanks, and
escaping adds none, so the breaks of a query are those of the texts that the filter compares with, in
their order. Main statement: a query is a single line exactly if no quoted literal of the filter has a
line feed.
-/
namespace Scim

open Scim.Filter

def Operand.texts : Operand → List String
  | text value => [value]
  | _ => []

def Expression.texts : Expression → List String
  | present _ => []
  | null _ _ => []
  | comparison _ _ value => value.texts
  | grouping _ filter => filter.texts
  | logical _ left right => left.texts ++ right.texts
  | negation filter => filter.texts

/-- The text of a quoted literal that is no date. -/
def Filter.Lexeme.texts : Lexeme → List String
  | quoted literal => (Operand.ofLiteral literal).texts
  | _ => []

namespace Filter

/-- A combined level has the texts of its terms in their order. -/
theorem texts_combine (first : Expression) (rest : List (LogicalOp × Expression)) :
    (combine Expression.logical first rest).texts =
      first.texts ++ rest.flatMap fun term => term.2.texts := by
  have hjoin : ∀ op left right, (Expression.logical op left right).texts =
      appended op left.texts right.texts := fun _ _ _ => rfl
  rw [map_combine hjoin, combine_appended, List.map_map, List.flatten_cons, List.flatMap_def]
  rfl

theorem Valued.texts_eq {path : AttributePath} {op : CompareOp} {lexeme : Lexeme} {e : Expression}
    (h : Valued path op lexeme e) : e.texts = lexeme.texts := by
  cases h <;> rfl

mutual

/-- A derivation loses no literal and moves none. -/
theorem texts_term {w : List Lexeme} {e : Expression} :
    Term w e → e.texts = w.flatMap Lexeme.texts
  | .group h => by simpa [Lexeme.texts] using texts_sentence h
  | .negation h => by simpa [Lexeme.texts, Expression.texts] using texts_sentence h
  | .values _ h => by simpa [Lexeme.texts, Expression.texts] using texts_sentence h
  | .present _ => rfl
  | .comparison _ _ hvalue => by simpa [Lexeme.texts] using hvalue.texts_eq

theorem texts_further {w : List Lexeme} {rest : List (LogicalOp × Expression)} :
    Further w rest → (rest.flatMap fun term => term.2.texts) = w.flatMap Lexeme.texts
  | .nil => rfl
  | .cons hterm hrest => by
    rw [List.flatMap_cons, texts_term hterm, texts_further hrest]
    simp [Lexeme.texts]

theorem texts_sentence {w : List Lexeme} {e : Expression} :
    Sentence w e → e.texts = w.flatMap Lexeme.texts
  | .level hfirst hrest => by
    rw [texts_combine, texts_term hfirst, texts_further hrest, List.flatMap_append]

end

end Filter

namespace Query

/-- White space that is no plain blank: line breaks, tabs and the blanks of other widths. -/
def isBreak (c : Char) : Bool := Text.isBlank c && c != ' '

def breaks (cs : List Char) : List Char := cs.filter isBreak

variable {cs ds : List Char}

theorem breaks_append (cs ds : List Char) : breaks (cs ++ ds) = breaks cs ++ breaks ds :=
  List.filter_append cs ds

theorem breaks_eq_nil (h : ∀ c ∈ cs, isBreak c = false) : breaks cs = [] :=
  List.filter_eq_nil_iff.2 fun c hc => by simp [h c hc]

theorem mem_breaks {c : Char} (hc : isBreak c = true) : c ∈ breaks cs ↔ c ∈ cs := by
  simp [breaks, hc]

theorem isBreak_of_isWordChar {c : Char} (h : Token.isWordChar c = true) : isBreak c = false := by
  rw [isBreak, (Token.isWordChar_iff.1 h).1, Bool.false_and]

/-- Instants are printed with digits and signs. -/
theorem isBreak_of_isUtcChar {c : Char} (h : Timestamp.isUtcChar c = true) : isBreak c = false := by
  rw [Timestamp.isUtcChar, Bool.or_eq_true, List.contains_iff_mem] at h
  rcases h with hdigit | hsign
  · exact isBreak_of_isWordChar (Token.isWordChar_of_isAlphanum (by simp [Char.isAlphanum, hdigit]))
  · have hsigns : "-+T:.Z".toList.all (fun c => !isBreak c) = true := rfl
    simpa using List.all_eq_true.1 hsigns c hsign

theorem breaks_backslashed (special : Char → Bool) (cs : List Char) :
    breaks (Text.backslashed special cs) = breaks cs := by
  induction cs with
  | nil => rfl
  | cons c cs ih =>
    have hchar : breaks (if special c then ['\\', c] else [c]) = breaks [c] := by
      split
      · rfl
      · rfl
    rw [Text.backslashed_cons, breaks_append, hchar, ih]
    exact (breaks_append [c] cs).symm

/-- Escaping neither adds nor removes breaks. -/
theorem breaks_quoted (text : String) : breaks (Text.quoted text).toList = breaks text.toList := by
  have hquote : breaks ['"'] = [] := rfl
  rw [Text.toList_quoted, List.cons_append, ← List.singleton_append, breaks_append, breaks_append,
    breaks_backslashed, hquote, List.append_nil, List.nil_append]

theorem breaks_field {path : AttributePath} (h : IsField path.text) :
    breaks (field path).toList = [] := by
  rw [toList_field]
  exact breaks_eq_nil fun c hc => isBreak_of_isWordChar (isWordChar_of_mem_fieldChars h c hc)

theorem breaks_numberText {value : Decimal} (h : value.scale ≤ 9223372036854775807) :
    breaks (numberText value).toList = [] := by
  have htext : breaks value.text.toList = [] :=
    breaks_eq_nil fun c hc => isBreak_of_isWordChar ((Decimal.isWord_text h).2 c hc)
  rw [toList_numberText, breaks_append, htext]
  split
  · rfl
  · rfl

theorem breaks_dateRange (op : CompareOp) (t : DateTime) :
    breaks (dateRange op (Timestamp.utcText t)).toList = [] := by
  have hbound : breaks (Timestamp.utcText t).toList = [] :=
    breaks_eq_nil fun c hc => isBreak_of_isUtcChar (Timestamp.isUtcChar_of_mem_utcText c hc)
  cases op <;> simp only [dateRange, String.toList_append, breaks_append, hbound] <;> rfl

theorem breaks_glyph (op : CompareOp) : breaks (glyph op).toList = [] := by
  cases op <;> rfl

/-- A star in front or behind is no break. -/
theorem breaks_textPattern (op : CompareOp) (text : String) :
    breaks (textPattern op text).toList = breaks text.toList := by
  have hstar : breaks "*".toList = [] := rfl
  cases op <;>
    simp only [textPattern, breaks_quoted, String.toList_append, breaks_append, hstar,
      List.append_nil, List.nil_append]

/-- The breaks of a clause are those of its literal. -/
theorem breaks_clause {path : AttributePath} (hpath : IsField path.text) (op : CompareOp)
    {value : Operand} (hvalue : value.Readable) :
    breaks (clause path op value).toList = value.texts.flatMap fun text => breaks text.toList := by
  cases value with
  | text text =>
    simp [clause, Operand.texts, breaks_append, breaks_field hpath, breaks_glyph, breaks_textPattern]
  | number value =>
    simp [clause, Operand.texts, breaks_append, breaks_field hpath, breaks_glyph,
      breaks_numberText hvalue]
  | boolean value =>
    cases value <;>
      simp only [clause, Operand.texts, String.toList_append, breaks_append, breaks_field hpath,
        breaks_glyph] <;> rfl
  | date value =>
    have hcolon : breaks ":".toList = [] := rfl
    simp only [clause, Operand.texts, String.toList_append, breaks_append, breaks_field hpath, hcolon,
      breaks_dateRange, List.append_nil, List.flatMap_nil]

theorem breaks_negated (clause : String) : breaks (negated clause).toList = breaks clause.toList := by
  have hopen : breaks "!(".toList = [] := rfl
  have hclose : breaks ")".toList = [] := rfl
  simp only [negated, String.toList_append, breaks_append, hopen, hclose, List.nil_append,
    List.append_nil]

theorem breaks_negatedIf (op : CompareOp) (clause : String) :
    breaks (negatedIf op clause).toList = breaks clause.toList := by
  unfold negatedIf
  split
  · exact breaks_negated clause
  · rfl

theorem breaks_connective (op : LogicalOp) : breaks (connective op).toList = [] := by
  cases op <;> rfl

/-- The breaks of a query are those of the texts that the expression compares with, in order. -/
theorem breaks_renderWithin {expression : Expression} {parent : Option AttributePath} {query : String}
    (h : expression.Readable) (hparent : ∀ path ∈ parent, path.Fielded)
    (hquery : renderWithin parent expression = .ok query) :
    breaks query.toList = expression.texts.flatMap fun text => breaks text.toList := by
  induction h generalizing parent query with
  | @present path hpath =>
    obtain rfl := Except.ok.inj hquery
    have hfield := ((AttributePath.fielded_of_readable hpath).within hparent).isField_text
    rw [String.toList_append, breaks_append, breaks_field hfield]
    rfl
  | @null path op hpath hop =>
    obtain ⟨-, -, hquery⟩ := Except.bind_eq_ok_iff.1 hquery
    obtain rfl := Except.ok.inj hquery
    have hfield := ((AttributePath.fielded_of_readable hpath).within hparent).isField_text
    rw [breaks_negatedIf, String.toList_append, breaks_append, breaks_field hfield]
    rfl
  | @comparison path op value hpath hop hvalue =>
    obtain ⟨-, -, hquery⟩ := Except.bind_eq_ok_iff.1 hquery
    obtain rfl := Except.ok.inj hquery
    have hfield := ((AttributePath.fielded_of_readable hpath).within hparent).isField_text
    rw [breaks_negatedIf, breaks_clause hfield op hvalue]
    rfl
  | @grouping group filter hgroup hfilter ih =>
    have hfielded := (AttributePath.fielded_of_readable hgroup).within hparent
    exact ih (by simpa using hfielded) hquery
  | @logical op left right hleft hright ihLeft ihRight =>
    obtain ⟨leftText, hleftText, hquery⟩ := Except.bind_eq_ok_iff.1 hquery
    obtain ⟨rightText, hrightText, hquery⟩ := Except.bind_eq_ok_iff.1 hquery
    obtain rfl := Except.ok.inj hquery
    have hopen : breaks "(".toList = [] := rfl
    have hclose : breaks ")".toList = [] := rfl
    simp only [String.toList_append, breaks_append, breaks_connective, hopen, hclose,
      ihLeft hparent hleftText, ihRight hparent hrightText, Expression.texts, List.flatMap_append,
      List.nil_append, List.append_nil]
  | @negation filter hfilter ih =>
    obtain ⟨inner, hinner, hquery⟩ := Except.bind_eq_ok_iff.1 hquery
    obtain rfl := Except.ok.inj hquery
    rw [breaks_negated, ih hparent hinner]
    rfl

/-- A break inside a quoted literal makes it a text, and the literal's text has it. -/
theorem mem_texts_iff {c : Char} (hc : isBreak c = true) {lexeme : Lexeme} :
    (∃ text ∈ lexeme.texts, c ∈ text.toList) ↔
      ∃ literal, lexeme = .quoted literal ∧ c ∈ literal.toList := by
  cases lexeme with
  | quoted literal =>
    cases hread : Timestamp.read .strict literal with
    | none => simp [Lexeme.texts, Operand.ofLiteral, Operand.texts, hread]
    | some t =>
      have hplain : c ∉ literal.toList := by
        intro hmem
        have hbreak := isBreak_of_isUtcChar (Timestamp.isUtcChar_of_read hread c hmem)
        rw [hc] at hbreak
        contradiction
      simp [Lexeme.texts, Operand.ofLiteral, Operand.texts, hread, hplain]
  | _ => simp [Lexeme.texts]

/-- The query of a filter has a line feed exactly if a quoted literal of the filter has one. -/
theorem newline_mem_query_iff {text query : String} {e : Expression} (hparse : Filter.parse text = .ok e)
    (hrender : render e = .ok query) :
    ∃ tokens, tokenize text = .ok tokens ∧
      ('\n' ∈ query.toList ↔
        ∃ literal, .quoted literal ∈ tokens.map Token.lexeme ∧ '\n' ∈ literal.toList) := by
  obtain ⟨tokens, htokens, hsentence⟩ := sentence_of_parse hparse
  have hfeed : isBreak '\n' = true := rfl
  have hbreaks := breaks_renderWithin (readable_of_parse hparse) (by simp) hrender
  rw [texts_sentence hsentence] at hbreaks
  refine ⟨tokens, htokens, ?_⟩
  calc
    '\n' ∈ query.toList ↔ '\n' ∈ breaks query.toList := (mem_breaks hfeed).symm
    _ ↔ ∃ lexeme ∈ tokens.map Token.lexeme, ∃ text ∈ lexeme.texts, '\n' ∈ text.toList := by
      rw [hbreaks, List.flatMap_assoc]
      simp only [List.mem_flatMap, mem_breaks hfeed]
    _ ↔ ∃ literal, .quoted literal ∈ tokens.map Token.lexeme ∧ '\n' ∈ literal.toList := by
      simp only [mem_texts_iff hfeed]
      constructor
      · rintro ⟨_, hlexeme, literal, rfl, hmem⟩
        exact ⟨literal, hlexeme, hmem⟩
      · rintro ⟨literal, hlexeme, hmem⟩
        exact ⟨_, hlexeme, literal, rfl, hmem⟩

/-- A text between two words and inside a grouping, and a date. Only the text breaks the query. -/
theorem newline_mem_query_iff_sample :
    ∃ text e query tokens,
      text = "title pr\nand (m[t co \"a\n\\\"b\"]\tor d ge \"2011-05-13T04:42:34Z\")" ∧
      query = "(_exists_:title AND (m.t:\"a\n\\\"b\" OR d:[2011-05-13T04:42:34.000Z TO *]))" ∧
      Filter.parse text = .ok e ∧ render e = .ok query ∧ tokenize text = .ok tokens ∧
      '\n' ∈ query.toList ∧
      ∃ literal, .quoted literal ∈ tokens.map Token.lexeme ∧ '\n' ∈ literal.toList := by
  let e : Expression := .logical .and (.present ⟨none, ["title"]⟩)
    (.logical .or (.grouping ⟨none, ["m"]⟩ (.comparison ⟨none, ["t"]⟩ .co (.text "a\n\"b")))
      (.comparison ⟨none, ["d"]⟩ .ge (.date ⟨⟨⟨2011, 5, 13⟩, 282, 34, 0⟩, 0, by decide⟩)))
  have hparse : Filter.parse "title pr\nand (m[t co \"a\n\\\"b\"]\tor d ge \"2011-05-13T04:42:34Z\")" =
      .ok e := by rfl
  have hrender : render e =
      .ok "(_exists_:title AND (m.t:\"a\n\\\"b\" OR d:[2011-05-13T04:42:34.000Z TO *]))" := by rfl
  obtain ⟨tokens, htokens, hiff⟩ := newline_mem_query_iff hparse hrender
  have hmem : '\n' ∈
      "(_exists_:title AND (m.t:\"a\n\\\"b\" OR d:[2011-05-13T04:42:34.000Z TO *]))".toList := by decide
  exact ⟨_, e, _, tokens, rfl, rfl, hparse, hrender, htokens, hmem, hiff.1 hmem⟩

/-- A line feed inside a quoted literal is written into the query as it is. -/
theorem query_of_broken_literal :
    Filter.parse "userName eq \"a\nb\"" =
        .ok (.comparison ⟨none, ["userName"]⟩ .eq (.text "a\nb")) ∧
      render (.comparison ⟨none, ["userName"]⟩ .eq (.text "a\nb")) = .ok "userName:\"a\nb\"" ∧
      '\n' ∈ "userName:\"a\nb\"".toList :=
  ⟨by rfl, by rfl, by decide⟩

end Query

end Scim
