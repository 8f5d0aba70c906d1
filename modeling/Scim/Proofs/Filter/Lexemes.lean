import Scim.Filter.Expression
import Scim.Proofs.Attribute.Path
import Scim.Proofs.Filter.Scanning
import Scim.Proofs.Number.Decimal

/-!
The lexemes of a canonical text. The text is put together from pieces that scan to their own lexemes
whatever follows, as long as a word is followed by something that ends it.
-/
namespace Scim

open Scim.Filter Scim.Filter.Token Text

/-- Characters are scanned as some lexemes wherever they stand before something that ends a word. -/
def Filter.Token.Scans (cs : List Char) (lexemes : List Lexeme) : Prop :=
  ∀ (position : Nat) (rest : List Char), Stops isWordChar rest →
    ∃ tokens : List Token, tokens.map Token.lexeme = lexemes ∧
      scan .between position (cs ++ rest) =
        (scan .between (position + byteCount cs) rest).map (tokens ++ ·)

namespace Filter.Token

theorem Scans.word {w : String} (hw : IsWord w.toList) : Scans w.toList [.word w] := by
  intro position rest hrest
  refine ⟨[⟨.word w, position⟩], rfl, ?_⟩
  rw [scan_word hw hrest, String.ofList_toList]
  rfl

theorem Scans.quoted (text : String) : Scans (Text.quoted text).toList [.quoted text] :=
  fun position rest _ => ⟨[⟨.quoted text, position⟩], rfl, scan_quoted text rest position⟩

/-- Texts are scanned one behind the other if the second one ends the words of the first. -/
theorem Scans.append {cs ds : List Char} {left right : List Lexeme} (hleft : Scans cs left)
    (hright : Scans ds right) (hstops : Stops isWordChar ds) :
    Scans (cs ++ ds) (left ++ right) := by
  intro position rest hrest
  obtain ⟨before, hbefore, hscan⟩ := hleft position (ds ++ rest) (stops_append hstops hrest)
  obtain ⟨after, hafter, hscan'⟩ := hright (position + byteCount cs) rest hrest
  refine ⟨before ++ after, by rw [List.map_append, hbefore, hafter], ?_⟩
  rw [List.append_assoc, hscan, hscan', Except.map_map, byteCount_append, Nat.add_assoc]
  simp only [List.append_assoc]

theorem Scans.blank {cs : List Char} {lexemes : List Lexeme} (h : Scans cs lexemes) :
    Scans (' ' :: cs) lexemes := by
  intro position rest hrest
  obtain ⟨tokens, htokens, hscan⟩ := h (position + ' '.utf8Size) rest hrest
  refine ⟨tokens, htokens, ?_⟩
  rw [List.cons_append, scan_blank (by decide), hscan, byteCount_cons, Nat.add_assoc]

theorem Scans.bracket {c : Char} {lexeme : Lexeme} {cs : List Char} {lexemes : List Lexeme}
    (hc : bracket? c = some lexeme) (hblank : isBlank c = false) (hquote : c ≠ '"')
    (h : Scans cs lexemes) : Scans (c :: cs) (lexeme :: lexemes) := by
  intro position rest hrest
  obtain ⟨tokens, htokens, hscan⟩ := h (position + c.utf8Size) rest hrest
  refine ⟨⟨lexeme, position⟩ :: tokens, by rw [List.map_cons, htokens], ?_⟩
  rw [List.cons_append, scan_bracket hc hblank hquote, hscan, Except.map_map, byteCount_cons,
    Nat.add_assoc]
  rfl

theorem Scans.nil : Scans [] [] := by
  intro position rest _
  refine ⟨[], rfl, ?_⟩
  rw [List.nil_append, byteCount_nil, Nat.add_zero]
  cases scan .between position rest <;> rfl

/-- A piece and a closing bracket after it. -/
theorem Scans.closed {cs : List Char} {lexemes : List Lexeme} (h : Scans cs lexemes) {c : Char}
    {lexeme : Lexeme} (hc : bracket? c = some lexeme) (hblank : isBlank c = false)
    (hquote : c ≠ '"') : Scans (cs ++ [c]) (lexemes ++ [lexeme]) :=
  h.append (.bracket hc hblank hquote .nil) (stops_cons (by simp [isWordChar, hc]) [])

/-- Two pieces with a space between them. -/
theorem Scans.spaced {cs ds : List Char} {left right : List Lexeme} (hleft : Scans cs left)
    (hright : Scans ds right) : Scans (cs ++ ' ' :: ds) (left ++ right) :=
  hleft.append hright.blank (stops_cons (by decide) ds)

/-- Two texts with a word between them. -/
theorem Scans.around {left right word : String} {before after : List Lexeme}
    (hleft : Scans left.toList before) (hword : IsWord word.toList)
    (hright : Scans right.toList after) :
    Scans (left ++ " " ++ word ++ " " ++ right).toList (before ++ .word word :: after) := by
  simp only [String.toList_append, List.append_assoc]
  exact hleft.spaced ((Scans.word hword).spaced hright)

theorem Scans.grouped {cs : List Char} {lexemes : List Lexeme} (h : Scans cs lexemes) :
    Scans ('(' :: (cs ++ [')'])) (.openParen :: (lexemes ++ [.closeParen])) :=
  .bracket rfl (by decide) (by decide) (h.closed rfl (by decide) (by decide))

end Filter.Token

theorem CompareOp.isWord_keyword (op : CompareOp) : IsWord op.keyword.toList := by
  cases op <;> exact isWord_of_all rfl rfl

theorem LogicalOp.isWord_keyword (op : LogicalOp) : IsWord op.keyword.toList := by
  cases op <;> exact isWord_of_all rfl rfl

theorem Filter.Token.isWordChar_of_isAlphanum {c : Char} (hc : c.isAlphanum = true) :
    isWordChar c = true := by
  have hascii : c.toNat < 128 := by
    simp only [Char.isAlphanum, Bool.or_eq_true, Text.isAlpha_iff] at hc
    rcases hc with hc | hc
    · omega
    · rw [Text.isDigit_iff] at hc
      omega
  have hall : ∀ n < 128, (Char.ofNat n).isAlphanum = true → isWordChar (Char.ofNat n) = true := by
    decide
  have hchar := hall c.toNat hascii
  rw [Char.ofNat_toNat] at hchar
  exact hchar hc

theorem AttributePath.isWord_of_isName {cs : List Char} (h : isName cs = true) : IsWord cs := by
  constructor
  · rintro rfl
    simp [isName] at h
  · intro c hc
    rcases isNameChar_of_isName h hc with hc | hc
    · exact isWordChar_of_isAlphanum hc
    · have hmarks : ['$', '_', '-'].all isWordChar = true := rfl
      exact List.all_eq_true.1 hmarks c hc

/-- The digits of a literal that has a value are ASCII digits. -/
theorem Decimal.isWord_of_read {text : String} {value : Decimal} (h : Decimal.read text = some value) :
    IsWord text.toList := by
  obtain ⟨n, hread, hvalue⟩ := Option.bind_eq_some_iff.1 h
  have hspelled := Numeral.spelled_of_read hread
  constructor
  · intro hnil
    rw [hnil] at hread
    cases hread
  · intro c hc
    rcases hspelled.mem hc with hc | hc
    · have hdigit := isDigit_of_ofNumeral? hvalue c hc
      exact isWordChar_of_isAlphanum (by simp [Char.isAlphanum, hdigit])
    · have hmarks : ['-', '+', '.', 'e', 'E'].all isWordChar = true := rfl
      exact List.all_eq_true.1 hmarks c hc

theorem Decimal.isWord_text {d : Decimal} (hd : d.scale ≤ 9223372036854775807) :
    IsWord d.text.toList := by
  obtain ⟨value, hvalue, -, -⟩ := exists_read_text hd
  exact isWord_of_read hvalue

def Operand.lexeme : Operand → Lexeme
  | .text value => .quoted value
  | .number value => .word value.text
  | .boolean true => .word "true"
  | .boolean false => .word "false"
  | .date value => .quoted (Timestamp.localText value)

namespace Expression

def operandLexemes (operand : Expression) (lexemes : List Lexeme) : List Lexeme :=
  if operand.isLogical then .openParen :: (lexemes ++ [.closeParen]) else lexemes

def lexemes : Expression → List Lexeme
  | present path => [.word path.text, .word "pr"]
  | null path op => [.word path.text, .word op.keyword, .word "null"]
  | comparison path op value => [.word path.text, .word op.keyword, value.lexeme]
  | grouping parent filter =>
    .word parent.text :: .openBracket :: (filter.lexemes ++ [.closeBracket])
  | logical op left right =>
    operandLexemes left left.lexemes ++
      .word op.keyword :: operandLexemes right right.lexemes
  | negation filter => .word "not" :: .openParen :: (filter.lexemes ++ [.closeParen])

end Expression

end Scim
