import Scim.Filter.Token
import Scim.Proofs.Result
import Scim.Proofs.Text.Basic
import Scim.Text.Basic

/-!
Scanning one spelled token after the other: white space is passed over, a bracket is a token by
itself, a word goes as far as its characters do, and a quoted literal is unescaped.
-/
namespace Scim.Filter.Token

open Text

def IsWord (cs : List Char) : Prop := cs ≠ [] ∧ ∀ c ∈ cs, isWordChar c = true

theorem isWord_of_all {cs : List Char} (hne : cs.isEmpty = false)
    (hall : cs.all isWordChar = true) : IsWord cs :=
  ⟨by simpa using hne, List.all_eq_true.1 hall⟩

theorem isWordChar_iff {c : Char} :
    isWordChar c = true ↔ isBlank c = false ∧ bracket? c = none ∧ c ≠ '"' := by
  simp [isWordChar, and_assoc]

theorem scan_blank {c : Char} (hc : isBlank c = true) (position : Nat) (cs : List Char) :
    scan .between position (c :: cs) = scan .between (position + c.utf8Size) cs := by
  have hstart : start position c = ([], .between) := by simp [start, hc]
  rw [scan, hstart]
  cases scan .between (position + c.utf8Size) cs <;> rfl

theorem scan_bracket {c : Char} {lexeme : Lexeme} (hc : bracket? c = some lexeme)
    (hblank : isBlank c = false) (hquote : c ≠ '"') (position : Nat) (cs : List Char) :
    scan .between position (c :: cs) =
      (scan .between (position + c.utf8Size) cs).map (⟨lexeme, position⟩ :: ·) := by
  have hstart : start position c = ([⟨lexeme, position⟩], .between) := by
    simp [start, hc, hblank, hquote]
  rw [scan, hstart]
  rfl

theorem scan_word_append {w : List Char} (hw : ∀ c ∈ w, isWordChar c = true)
    (first position : Nat) (seen rest : List Char) :
    scan (.word first seen) position (w ++ rest) =
      scan (.word first (w.reverse ++ seen)) (position + byteCount w) rest := by
  induction w generalizing position seen with
  | nil => rfl
  | cons c w ih =>
    have hc := hw c List.mem_cons_self
    rw [List.cons_append, scan, if_pos hc, ih (fun d hd => hw d (List.mem_cons_of_mem c hd))]
    simp only [List.reverse_cons, List.append_assoc, List.cons_append, List.nil_append,
      byteCount_cons, Nat.add_assoc]

/-- A word ends where the text stops. -/
theorem scan_word_end {rest : List Char} (hrest : Stops isWordChar rest) (first position : Nat)
    (seen : List Char) :
    scan (.word first seen) position rest =
      (scan .between position rest).map (⟨.word (String.ofList seen.reverse), first⟩ :: ·) := by
  cases rest with
  | nil => rfl
  | cons c cs =>
    have hc : ¬isWordChar c = true := by simp [hrest c rfl]
    rw [scan, scan, if_neg hc]
    cases scan (start position c).2 (position + c.utf8Size) cs <;> rfl

/-- A word is scanned as one token up to what ends it. -/
theorem scan_word {w rest : List Char} (hw : IsWord w) (hrest : Stops isWordChar rest)
    (position : Nat) :
    scan .between position (w ++ rest) =
      (scan .between (position + byteCount w) rest).map
        (⟨.word (String.ofList w), position⟩ :: ·) := by
  obtain ⟨hne, hchars⟩ := hw
  cases w with
  | nil => exact absurd rfl hne
  | cons c w =>
    obtain ⟨hblank, hbracket, hquote⟩ := isWordChar_iff.1 (hchars c List.mem_cons_self)
    have hstart : start position c = ([], .word position [c]) := by
      simp [start, hblank, hbracket, hquote]
    have hrun := scan_word_append (fun d hd => hchars d (List.mem_cons_of_mem c hd)) position
      (position + c.utf8Size) [c] rest
    have hend := scan_word_end hrest position (position + c.utf8Size + byteCount w)
      (w.reverse ++ [c])
    rw [List.cons_append, scan, hstart, hrun, hend]
    simp only [List.reverse_append, List.reverse_reverse, List.reverse_cons, List.reverse_nil,
      List.nil_append, List.cons_append, byteCount_cons, Nat.add_assoc]
    cases scan .between (position + (c.utf8Size + byteCount w)) rest <;> rfl

/-- What may stand between the quotes of a literal, and the text that it means. A backslash that
escapes neither a quote nor a backslash stands for itself. -/
inductive Interior : List Char → List Char → Prop
  | nil : Interior [] []
  | plain {c : Char} {cs text : List Char} (hquote : c ≠ '"') (hslash : c ≠ '\\')
      (h : Interior cs text) : Interior (c :: cs) (c :: text)
  | escaped {c : Char} {cs text : List Char} (hc : c = '"' ∨ c = '\\') (h : Interior cs text) :
      Interior ('\\' :: c :: cs) (c :: text)
  | lone {c : Char} {cs text : List Char} (hquote : c ≠ '"') (hslash : c ≠ '\\')
      (h : Interior cs text) : Interior ('\\' :: c :: cs) ('\\' :: c :: text)

theorem interior_backslashed (cs : List Char) : Interior (backslashed isQuoteSpecial cs) cs := by
  induction cs with
  | nil => exact .nil
  | cons c cs ih =>
    rw [backslashed_cons]
    cases hc : isQuoteSpecial c with
    | true => exact .escaped (by simpa [isQuoteSpecial] using hc) ih
    | false =>
      have hplain : c ≠ '"' ∧ c ≠ '\\' := by simpa [isQuoteSpecial] using hc
      exact .plain hplain.1 hplain.2 ih

/-- Inside a literal the text that it means is collected. -/
theorem scan_interior {cs text : List Char} (h : Interior cs text) (first position : Nat)
    (seen rest : List Char) :
    scan (.literal first seen) position (cs ++ rest) =
      scan (.literal first (text.reverse ++ seen)) (position + byteCount cs) rest := by
  induction h generalizing position seen with
  | nil => rfl
  | plain hquote hslash _ ih =>
    rw [List.cons_append, scan, if_neg hquote, if_neg hslash, ih]
    simp only [List.reverse_cons, List.append_assoc, List.cons_append, List.nil_append,
      byteCount_cons, Nat.add_assoc]
  | escaped hc _ ih =>
    rw [List.cons_append, List.cons_append, scan, if_neg (by decide), if_pos rfl, scan, if_pos hc,
      ih]
    simp only [List.reverse_cons, List.append_assoc, List.cons_append, List.nil_append,
      byteCount_cons, Nat.add_assoc]
  | lone hquote hslash _ ih =>
    have hplain := not_or.2 ⟨hquote, hslash⟩
    rw [List.cons_append, List.cons_append, scan, if_neg (by decide), if_pos rfl, scan,
      if_neg hplain, ih]
    simp only [List.reverse_cons, List.append_assoc, List.cons_append, List.nil_append,
      byteCount_cons, Nat.add_assoc]

/-- A literal ends at the first quote behind its interior. -/
theorem scan_literal {cs text : List Char} (h : Interior cs text) (rest : List Char)
    (position : Nat) :
    scan .between position ('"' :: cs ++ '"' :: rest) =
      (scan .between (position + byteCount ('"' :: cs ++ ['"'])) rest).map
        (⟨.quoted (String.ofList text), position⟩ :: ·) := by
  have hstart : start position '"' = ([], .literal position []) := rfl
  have hrun := scan_interior h position (position + '"'.utf8Size) [] ('"' :: rest)
  rw [List.cons_append, scan, hstart, hrun, scan, if_pos rfl]
  simp only [List.append_nil, List.reverse_reverse, List.nil_append, byteCount_cons,
    byteCount_append, byteCount_nil, Nat.add_assoc, Nat.add_zero]
  cases scan .between _ rest <;> rfl

/-- A quoted text is scanned as a literal of this text. -/
theorem scan_quoted (text : String) (rest : List Char) (position : Nat) :
    scan .between position ((quoted text).toList ++ rest) =
      (scan .between (position + byteCount (quoted text).toList) rest).map
        (⟨.quoted text, position⟩ :: ·) := by
  have hliteral := scan_literal (interior_backslashed text.toList) rest position
  rw [String.ofList_toList] at hliteral
  rw [toList_quoted, List.append_assoc]
  exact hliteral

end Scim.Filter.Token
