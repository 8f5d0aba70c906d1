import Mathlib.Data.List.Chain
import Mathlib.Data.List.TakeWhile
import Scim.Filter.Reading
import Scim.Proofs.Filter.Scanning

/-!
How tokens lie in a text: white space and tokens by turns, every token in one of the ways to write
it, and white space between any two words. A text has tokens exactly if it is laid out like that,
and then it has the tokens that were laid out. Any other text has a literal that is never closed.
-/
namespace Scim.Filter

open Text Token

def Lexeme.isWord : Lexeme → Bool
  | word _ => true
  | _ => false

/-- The ways to write a lexeme. A literal can be written in several ways, as some backslashes may be
escaped or not. -/
inductive Lexeme.Source : Lexeme → List Char → Prop
  | bracket {c : Char} {lexeme : Lexeme} (hc : bracket? c = some lexeme) : Source lexeme [c]
  | word {cs : List Char} (h : IsWord cs) : Source (.word (String.ofList cs)) cs
  | quoted {cs text : List Char} (h : Interior cs text) :
      Source (.quoted (String.ofList text)) ('"' :: cs ++ ['"'])

/-- A token in its text: the white space in front of it, what it is, and how it is written. -/
structure Piece where
  blank : List Char
  lexeme : Lexeme
  source : List Char
  isBlank_blank : ∀ c ∈ blank, isBlank c = true
  source_lexeme : lexeme.Source source

namespace Piece

def chars (piece : Piece) : List Char := piece.blank ++ piece.source

/-- Two words with nothing between them would be one word. -/
def Apart (piece next : Piece) : Prop :=
  piece.lexeme.isWord = true → next.lexeme.isWord = true → next.blank ≠ []

def tokensFrom : Nat → List Piece → List Token
  | _, [] => []
  | position, piece :: pieces =>
    ⟨piece.lexeme, position + byteCount piece.blank⟩ ::
      tokensFrom (position + byteCount piece.chars) pieces

end Piece

/-- A text with its tokens. White space may follow the last one. -/
structure Layout where
  pieces : List Piece
  tail : List Char
  apart : pieces.IsChain Piece.Apart
  isBlank_tail : ∀ c ∈ tail, isBlank c = true

namespace Layout

def chars (layout : Layout) : List Char := layout.pieces.flatMap Piece.chars ++ layout.tail

def text (layout : Layout) : String := String.ofList layout.chars

def tokens (layout : Layout) : List Token := Piece.tokensFrom 0 layout.pieces

end Layout

def Unclosed (cs : List Char) : Prop :=
  ∀ body text rest, Interior body text → cs ≠ body ++ '"' :: rest

variable {cs rest : List Char} {lexeme : Lexeme} {pieces : List Piece} {position : Nat}

/-- Quoting a text is one way to write it as a literal. -/
theorem source_quoted (text : String) : Lexeme.Source (.quoted text) (quoted text).toList := by
  have hsource := Lexeme.Source.quoted (interior_backslashed text.toList)
  rwa [String.ofList_toList, ← toList_quoted] at hsource

theorem Lexeme.Source.isWord {word : String} (h : Lexeme.Source (.word word) cs) :
    IsWord word.toList := by
  cases h with
  | word h => rwa [String.toList_ofList]
  | bracket hc =>
    unfold bracket? at hc
    split at hc <;> simp at hc

theorem bracket?_cases {c : Char} (hc : bracket? c = some lexeme) :
    isBlank c = false ∧ c ≠ '"' ∧ lexeme.isWord = false := by
  unfold bracket? at hc
  split at hc
  · exact ⟨by decide, by decide, by rw [← Option.some.inj hc]; rfl⟩
  · exact ⟨by decide, by decide, by rw [← Option.some.inj hc]; rfl⟩
  · exact ⟨by decide, by decide, by rw [← Option.some.inj hc]; rfl⟩
  · exact ⟨by decide, by decide, by rw [← Option.some.inj hc]; rfl⟩
  · simp at hc

theorem Lexeme.Source.byteCount_pos (h : lexeme.Source cs) : 0 < byteCount cs := by
  obtain ⟨c, cs, rfl⟩ : ∃ c rest, cs = c :: rest := by
    cases h with
    | bracket hc => exact ⟨_, [], rfl⟩
    | word h => exact List.exists_cons_of_ne_nil h.1
    | quoted h => exact ⟨'"', _, rfl⟩
  rw [byteCount_cons]
  have := c.utf8Size_pos
  omega

/-- A word ends where another token starts that is none. -/
theorem Lexeme.Source.stops (h : lexeme.Source cs) (hword : lexeme.isWord = false)
    (rest : List Char) : Stops isWordChar (cs ++ rest) := by
  cases h with
  | bracket hc => exact stops_cons (by simp [isWordChar, hc]) rest
  | word h => simp [Lexeme.isWord] at hword
  | quoted h => exact stops_cons (by decide) _

theorem Lexeme.Source.exists_cons (h : lexeme.Source cs) (hword : lexeme.isWord = true) :
    ∃ c rest, cs = c :: rest ∧ isWordChar c = true := by
  cases h with
  | bracket hc => simp [(bracket?_cases hc).2.2] at hword
  | quoted h => simp [Lexeme.isWord] at hword
  | word h =>
    obtain ⟨c, rest, rfl⟩ := List.exists_cons_of_ne_nil h.1
    exact ⟨c, rest, rfl, h.2 c List.mem_cons_self⟩

theorem scan_blanks {blank : List Char} (h : ∀ c ∈ blank, isBlank c = true) (position : Nat)
    (rest : List Char) :
    scan .between position (blank ++ rest) = scan .between (position + byteCount blank) rest := by
  induction blank generalizing position with
  | nil => rfl
  | cons c blank ih =>
    rw [List.cons_append, scan_blank (h c List.mem_cons_self),
      ih (fun d hd => h d (List.mem_cons_of_mem c hd)), byteCount_cons, Nat.add_assoc]

/-- However a lexeme is written, it is scanned as one token. -/
theorem scan_source (h : lexeme.Source cs) (hrest : lexeme.isWord = true → Stops isWordChar rest)
    (position : Nat) :
    scan .between position (cs ++ rest) =
      (scan .between (position + byteCount cs) rest).map (⟨lexeme, position⟩ :: ·) := by
  cases h with
  | bracket hc =>
    obtain ⟨hblank, hquote, -⟩ := bracket?_cases hc
    exact scan_bracket hc hblank hquote position rest
  | word h => exact scan_word h (hrest rfl) position
  | quoted h =>
    rw [List.append_assoc]
    exact scan_literal h rest position

theorem stops_pieces {piece : Piece} (hapart : (piece :: pieces).IsChain Piece.Apart)
    (hword : piece.lexeme.isWord = true) (hrest : Stops isWordChar rest) :
    Stops isWordChar (pieces.flatMap Piece.chars ++ rest) := by
  cases pieces with
  | nil => exact hrest
  | cons next pieces =>
    obtain ⟨hnext, -⟩ := List.isChain_cons_cons.1 hapart
    rw [List.flatMap_cons, List.append_assoc, Piece.chars, List.append_assoc]
    cases hblank : next.blank with
    | nil =>
      have hother : next.lexeme.isWord = false :=
        Bool.eq_false_iff.2 fun hother => hnext hword hother hblank
      exact next.source_lexeme.stops hother _
    | cons c blank =>
      have hc := next.isBlank_blank c (by simp [hblank])
      exact stops_cons (by simp [isWordChar, hc]) _

theorem scan_pieces (hapart : pieces.IsChain Piece.Apart) (hrest : Stops isWordChar rest)
    (position : Nat) :
    scan .between position (pieces.flatMap Piece.chars ++ rest) =
      (scan .between (position + byteCount (pieces.flatMap Piece.chars)) rest).map
        (Piece.tokensFrom position pieces ++ ·) := by
  induction pieces generalizing position with
  | nil => cases hscan : scan .between position rest <;> simp [Piece.tokensFrom, hscan, Except.map]
  | cons piece pieces ih =>
    have hnext := scan_source piece.source_lexeme
      (fun hword => stops_pieces hapart hword hrest) (position + byteCount piece.blank)
    rw [List.flatMap_cons, List.append_assoc, Piece.chars, List.append_assoc,
      scan_blanks piece.isBlank_blank, hnext, Nat.add_assoc, ← byteCount_append,
      ih (List.isChain_cons.1 hapart).2, Except.map_map]
    simp only [Piece.tokensFrom, Piece.chars, byteCount_append, List.cons_append, Nat.add_assoc]

theorem stops_blanks {blank : List Char} (h : ∀ c ∈ blank, isBlank c = true)
    (hrest : Stops isWordChar rest) : Stops isWordChar (blank ++ rest) := by
  cases blank with
  | nil => exact hrest
  | cons c blank =>
    have hc := h c List.mem_cons_self
    exact stops_cons (by simp [isWordChar, hc]) _

/-- A layout is scanned as its tokens, whatever follows it. -/
theorem scan_layout (layout : Layout) (hrest : Stops isWordChar rest) :
    scan .between 0 (layout.chars ++ rest) =
      (scan .between (byteCount layout.chars) rest).map (layout.tokens ++ ·) := by
  rw [Layout.chars, List.append_assoc,
    scan_pieces layout.apart (stops_blanks layout.isBlank_tail hrest),
    scan_blanks layout.isBlank_tail, Nat.zero_add, byteCount_append]
  rfl

theorem tokenize_text (layout : Layout) : tokenize layout.text = .ok layout.tokens := by
  have hscan := scan_layout layout (stops_nil isWordChar)
  rw [List.append_nil, scan] at hscan
  simp only [tokenize, Layout.text, String.toList_ofList, hscan, Except.map, List.append_nil]

/-- A text is the interior of a literal up to its first quote, but for a last backslash. -/
theorem exists_interior : ∀ cs : List Char, ∃ body text rest, cs = body ++ rest ∧
    Interior body text ∧ (rest = [] ∨ rest = ['\\'] ∨ ∃ after, rest = '"' :: after)
  | [] => ⟨[], [], [], rfl, .nil, .inl rfl⟩
  | c :: cs => by
    by_cases hquote : c = '"'
    · exact ⟨[], [], c :: cs, rfl, .nil, .inr (.inr ⟨cs, by rw [hquote]⟩)⟩
    by_cases hslash : c = '\\'
    · subst hslash
      cases cs with
      | nil => exact ⟨[], [], ['\\'], rfl, .nil, .inr (.inl rfl)⟩
      | cons d ds =>
        obtain ⟨body, text, rest, rfl, hbody, hrest⟩ := exists_interior ds
        by_cases hd : d = '"' ∨ d = '\\'
        · exact ⟨'\\' :: d :: body, d :: text, rest, rfl, .escaped hd hbody, hrest⟩
        · obtain ⟨hquote, hslash⟩ := not_or.1 hd
          exact ⟨'\\' :: d :: body, '\\' :: d :: text, rest, rfl, .lone hquote hslash hbody, hrest⟩
    · obtain ⟨body, text, rest, rfl, hbody, hrest⟩ := exists_interior cs
      exact ⟨c :: body, c :: text, rest, rfl, .plain hquote hslash hbody, hrest⟩

theorem scan_unclosed (h : Unclosed cs) (first position : Nat) (seen : List Char) :
    scan (.literal first seen) position cs = .error first := by
  obtain ⟨body, text, rest, rfl, hbody, rfl | rfl | ⟨after, rfl⟩⟩ := exists_interior cs
  · rw [scan_interior hbody]
    rfl
  · rw [scan_interior hbody]
    rfl
  · exact absurd rfl (h body text after hbody)

/-- A quote that is never closed is reported where it stands. -/
theorem tokenize_unclosed (layout : Layout) {after : List Char} (h : Unclosed after) :
    tokenize (String.ofList (layout.chars ++ '"' :: after)) =
      .error ⟨.unterminatedLiteral, byteCount layout.chars,
        String.ofList (('"' :: after).take fragmentLength)⟩ := by
  have hquote : scan .between (byteCount layout.chars) ('"' :: after) =
      .error (byteCount layout.chars) := by
    have hstart : start (byteCount layout.chars) '"' = ([], .literal (byteCount layout.chars) []) :=
      rfl
    rw [scan, hstart, scan_unclosed h]
    rfl
  have hstops : Stops isWordChar ('"' :: after) := stops_cons (by decide) after
  have hscan := scan_layout layout hstops
  rw [hquote] at hscan
  simp only [tokenize, String.toList_ofList, hscan, Except.map, SyntaxError.at, Place.of_byteCount]

/-- Where white space ends there is a token, or a literal that is never closed, or nothing. -/
theorem exists_source (hcs : Stops isBlank cs) : cs = [] ∨
    (∃ after, cs = '"' :: after ∧ Unclosed after) ∨
    ∃ lexeme source rest, cs = source ++ rest ∧ Lexeme.Source lexeme source ∧
      (lexeme.isWord = true → Stops isWordChar rest) := by
  cases cs with
  | nil => exact .inl rfl
  | cons c cs =>
    have hblank : isBlank c = false := hcs c rfl
    refine .inr ?_
    by_cases hquote : c = '"'
    · subst hquote
      by_cases hclosed : ∃ body text rest, Interior body text ∧ cs = body ++ '"' :: rest
      · obtain ⟨body, text, rest, hbody, rfl⟩ := hclosed
        refine .inr ⟨_, _, rest, ?_, .quoted hbody, fun hword => Bool.noConfusion hword⟩
        rw [List.append_assoc]
        rfl
      · exact .inl ⟨cs, rfl, fun body text rest hbody heq => hclosed ⟨body, text, rest, hbody, heq⟩⟩
    refine .inr ?_
    cases hbracket : bracket? c with
    | some lexeme =>
      have hother := (bracket?_cases hbracket).2.2
      exact ⟨lexeme, [c], cs, rfl, .bracket hbracket, fun hword => by simp [hother] at hword⟩
    | none =>
      have hc : isWordChar c = true := isWordChar_iff.2 ⟨hblank, hbracket, hquote⟩
      refine ⟨_, c :: cs.takeWhile isWordChar, cs.dropWhile isWordChar, ?_, .word ⟨by simp, ?_⟩,
        fun _ => stops_dropWhile isWordChar cs⟩
      · rw [List.cons_append, List.takeWhile_append_dropWhile]
      · intro d hd
        rcases List.mem_cons.1 hd with rfl | hd
        · exact hc
        · exact List.mem_takeWhile_imp hd

theorem apart_of_stops {piece : Piece}
    (h : piece.lexeme.isWord = true → Stops isWordChar (pieces.flatMap Piece.chars ++ rest)) :
    ∀ next ∈ pieces.head?, piece.Apart next := by
  intro next hnext hword hnextWord hblank
  cases pieces with
  | nil => simp at hnext
  | cons first pieces =>
    obtain rfl : first = next := by simpa using hnext
    have hstops := h hword
    obtain ⟨c, cs, hsource, hc⟩ := first.source_lexeme.exists_cons hnextWord
    rw [List.flatMap_cons, Piece.chars, hblank, hsource] at hstops
    have hnot := hstops c rfl
    rw [hc] at hnot
    exact Bool.noConfusion hnot

/-- Every text is a layout, up to a quote that is never closed. -/
theorem exists_layout (cs : List Char) : ∃ layout : Layout, ∃ rest, cs = layout.chars ++ rest ∧
    (rest = [] ∨ ∃ after, rest = '"' :: after ∧ Unclosed after) := by
  induction hlength : cs.length using Nat.strongRecOn generalizing cs with
  | ind length ih =>
    have hblank : ∀ c ∈ cs.takeWhile isBlank, isBlank c = true := fun c => List.mem_takeWhile_imp
    have hsplit := List.takeWhile_append_dropWhile (p := isBlank) (l := cs)
    have hend : ∀ rest, cs.dropWhile isBlank = rest →
        cs = Layout.chars ⟨[], cs.takeWhile isBlank, .nil, hblank⟩ ++ rest := by
      rintro rest rfl
      exact hsplit.symm
    -- The first token takes at least one character, so what is behind it is laid out already.
    rcases exists_source (stops_dropWhile isBlank cs) with hnil | ⟨after, hafter, hunclosed⟩ |
      ⟨lexeme, source, behind, hbehind, hsource, hstops⟩
    · exact ⟨_, [], hend _ hnil, .inl rfl⟩
    · exact ⟨_, _, hend _ hafter, .inr ⟨after, rfl, hunclosed⟩⟩
    · have hshorter : behind.length < length := by
        have hpos : 0 < source.length := List.length_pos_iff.2 fun hnil => by
          have := hsource.byteCount_pos
          simp [hnil] at this
        have hle := (List.dropWhile_suffix isBlank (l := cs)).length_le
        rw [hbehind, List.length_append] at hle
        omega
      obtain ⟨layout, rest, hlayout, hrest⟩ := ih _ hshorter behind rfl
      let piece : Piece := ⟨cs.takeWhile isBlank, lexeme, source, hblank, hsource⟩
      have hword : piece.lexeme.isWord = true →
          Stops isWordChar (layout.pieces.flatMap Piece.chars ++ (layout.tail ++ rest)) := by
        intro hword
        have hstops := hstops hword
        rw [hlayout, Layout.chars, List.append_assoc] at hstops
        exact hstops
      have hapart : (piece :: layout.pieces).IsChain Piece.Apart :=
        List.isChain_cons.2 ⟨apart_of_stops hword, layout.apart⟩
      refine ⟨⟨piece :: layout.pieces, layout.tail, hapart, layout.isBlank_tail⟩, rest, ?_, hrest⟩
      have hchars : cs = piece.chars ++ (layout.chars ++ rest) := by
        rw [← hlayout, Piece.chars, List.append_assoc, ← hbehind]
        exact hsplit.symm
      rw [hchars]
      simp only [Layout.chars, List.flatMap_cons, List.append_assoc]

theorem map_lexeme_tokensFrom (pieces : List Piece) (position : Nat) :
    (Piece.tokensFrom position pieces).map Token.lexeme = pieces.map Piece.lexeme := by
  induction pieces generalizing position with
  | nil => rfl
  | cons piece pieces ih => rw [Piece.tokensFrom, List.map_cons, List.map_cons, ih]

theorem mem_tokensFrom {token : Token} (h : token ∈ Piece.tokensFrom position pieces) :
    ∃ before piece after, pieces = before ++ piece :: after ∧
      token = ⟨piece.lexeme, position + byteCount (before.flatMap Piece.chars ++ piece.blank)⟩ := by
  induction pieces generalizing position with
  | nil => simp [Piece.tokensFrom] at h
  | cons first pieces ih =>
    rcases List.mem_cons.1 h with rfl | h
    · exact ⟨[], first, pieces, rfl, rfl⟩
    · obtain ⟨before, piece, after, rfl, rfl⟩ := ih h
      refine ⟨first :: before, piece, after, rfl, ?_⟩
      rw [List.flatMap_cons, List.append_assoc, byteCount_append first.chars, Nat.add_assoc]

/-- The tokens stand one behind the other. -/
theorem pairwise_position (pieces : List Piece) (position : Nat) :
    (Piece.tokensFrom position pieces).Pairwise fun token later =>
      token.position < later.position := by
  induction pieces generalizing position with
  | nil => exact .nil
  | cons first pieces ih =>
    refine List.pairwise_cons.2 ⟨fun later hlater => ?_, ih _⟩
    obtain ⟨before, piece, after, -, rfl⟩ := mem_tokensFrom hlater
    have hsource := first.source_lexeme.byteCount_pos
    simp only [Piece.chars, byteCount_append]
    omega

/-- A token is written at its position. -/
theorem afterBytes_of_mem {layout : Layout} {token : Token} (h : token ∈ layout.tokens) :
    ∃ source rest, token.lexeme.Source source ∧
      afterBytes layout.text.toList token.position = some (source ++ rest) := by
  obtain ⟨before, piece, after, hpieces, rfl⟩ := mem_tokensFrom h
  refine ⟨piece.source, after.flatMap Piece.chars ++ layout.tail, piece.source_lexeme, ?_⟩
  have hchars : layout.chars = (before.flatMap Piece.chars ++ piece.blank) ++
      (piece.source ++ (after.flatMap Piece.chars ++ layout.tail)) := by
    simp only [Layout.chars, hpieces, List.flatMap_append, List.flatMap_cons, Piece.chars,
      List.append_assoc]
  rw [Layout.text, String.toList_ofList, hchars, Nat.zero_add, afterBytes_byteCount]

/-- Tokenizing succeeds on the layouts, with their tokens. -/
theorem tokenize_eq_ok_iff {text : String} {tokens : List Token} : tokenize text = .ok tokens ↔
    ∃ layout : Layout, layout.text = text ∧ layout.tokens = tokens := by
  constructor
  · intro h
    obtain ⟨layout, rest, hchars, rfl | ⟨after, rfl, hafter⟩⟩ := exists_layout text.toList
    · have htext : layout.text = text := by
        rw [Layout.text, ← String.ofList_toList (s := text), hchars, List.append_nil]
      rw [← htext, tokenize_text] at h
      exact ⟨layout, htext, Except.ok.inj h⟩
    · rw [← String.ofList_toList (s := text), hchars, tokenize_unclosed layout hafter] at h
      cases h
  · rintro ⟨layout, rfl, rfl⟩
    exact tokenize_text layout

theorem tokenize_eq_error_iff {text : String} {error : SyntaxError} :
    tokenize text = .error error ↔ ∃ (layout : Layout) (after : List Char),
      text.toList = layout.chars ++ '"' :: after ∧ Unclosed after ∧
      error = ⟨.unterminatedLiteral, byteCount layout.chars,
        String.ofList (('"' :: after).take fragmentLength)⟩ := by
  constructor
  · intro h
    obtain ⟨layout, rest, hchars, rfl | ⟨after, rfl, hafter⟩⟩ := exists_layout text.toList
    · rw [← String.ofList_toList (s := text), hchars, List.append_nil] at h
      cases (tokenize_text layout).symm.trans h
    · rw [← String.ofList_toList (s := text), hchars, tokenize_unclosed layout hafter] at h
      exact ⟨layout, after, hchars, hafter, (Except.error.inj h).symm⟩
  · rintro ⟨layout, after, hchars, hafter, rfl⟩
    rw [← String.ofList_toList (s := text), hchars, tokenize_unclosed layout hafter]

example : tokenize "é \"a\\\"" = .error ⟨.unterminatedLiteral, 3, "\"a\\\""⟩ := by decide +kernel

/-- Tokenizing loses nothing. A text has tokens exactly if it is white space with tokens in it, two
words never without white space between them, and it has the tokens that were laid out, each where
it is written; a literal is written with its quotes and backslashes escaped, or in a way that says
the same. A text without tokens has a quote outside all literals that no quote closes, and the
fault is at that quote. -/
theorem tokenize_lossless :
    (∀ text, Lexeme.Source (.quoted text) (quoted text).toList) ∧
    (∀ text tokens, tokenize text = .ok tokens ↔
      ∃ layout : Layout, layout.text = text ∧ layout.tokens = tokens) ∧
    (∀ layout : Layout, layout.tokens.map Token.lexeme = layout.pieces.map Piece.lexeme ∧
      (layout.tokens.Pairwise fun token later => token.position < later.position) ∧
      ∀ token ∈ layout.tokens, ∃ source rest, token.lexeme.Source source ∧
        afterBytes layout.text.toList token.position = some (source ++ rest)) ∧
    ∀ text error, tokenize text = .error error ↔ ∃ (layout : Layout) (after : List Char),
      text.toList = layout.chars ++ '"' :: after ∧ Unclosed after ∧
      error = ⟨.unterminatedLiteral, byteCount layout.chars,
        String.ofList (('"' :: after).take fragmentLength)⟩ := by
  refine ⟨source_quoted, fun _ _ => tokenize_eq_ok_iff, fun layout => ?_,
    fun _ _ => tokenize_eq_error_iff⟩
  exact ⟨map_lexeme_tokensFrom layout.pieces 0, pairwise_position layout.pieces 0,
    fun token => afterBytes_of_mem⟩

theorem tokenize_lossless_touching :
    tokenize "né\"a\\\"\\b\\\\\"(x" =
      .ok [⟨.word "né", 0⟩, ⟨.quoted "a\"\\b\\", 3⟩, ⟨.openParen, 12⟩, ⟨.word "x", 13⟩] ∧
    ∃ layout : Layout, layout.text = "né\"a\\\"\\b\\\\\"(x" ∧ layout.tokens =
      [⟨.word "né", 0⟩, ⟨.quoted "a\"\\b\\", 3⟩, ⟨.openParen, 12⟩, ⟨.word "x", 13⟩] := by
  have htokens : tokenize "né\"a\\\"\\b\\\\\"(x" =
      .ok [⟨.word "né", 0⟩, ⟨.quoted "a\"\\b\\", 3⟩, ⟨.openParen, 12⟩, ⟨.word "x", 13⟩] := by
    decide +kernel
  exact ⟨htokens, (tokenize_lossless.2.1 _ _).1 htokens⟩

end Scim.Filter
