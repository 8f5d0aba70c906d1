import Scim.Proofs.Filter.Layout

/-!
Where a text stops being a filter. The machine that reads filters remembers the positions of the
brackets that are open and of a `not` without its bracket, and all of them are positions of tokens
read before. So a fault is reported at a token that shows it, or at the end where a token is missing.
The position is never inside a character, and the fragment is the piece of text that starts there.
-/
namespace Scim.Filter

open Text Token

inductive Blames : Fault → Lexeme → Prop
  | notAPath {lexeme : Lexeme} (hparen : lexeme ≠ .openParen) (hword : lexeme.isWord = false) :
      Blames .notAPath lexeme
  | negationWithoutGroup : Blames .negationWithoutGroup (.word "not")
  | invalidPath {word : String} {fault : AttributePath.Fault}
      (hword : AttributePath.parse word = .error fault) : Blames (.invalidPath fault) (.word word)
  | notAnOperator {lexeme : Lexeme} (path : String) (hbracket : lexeme ≠ .openBracket)
      (hword : lexeme.isWord = false) : Blames (.notAnOperator path) lexeme
  | unknownOperator {word : String} (hword : CompareOp.ofKeyword? word = none) :
      Blames (.unknownOperator word) (.word word)
  | needlessQuoted (text : String) : Blames .needlessValue (.quoted text)
  | needlessWord {word : String} (hword : LogicalOp.ofKeyword? word = none) :
      Blames .needlessValue (.word word)
  | valueMissing {c : Char} {lexeme : Lexeme} (op : CompareOp) (hc : bracket? c = some lexeme) :
      Blames (.valueMissing op) lexeme
  | value {path : AttributePath} {op : CompareOp} {word : String} {fault : Fault}
      (hword : bareTerm path op word = .error fault) : Blames fault (.word word)
  | unmatched {c : Char} {lexeme : Lexeme} (hc : bracket? c = some lexeme) :
      Blames (.unmatched c) lexeme
  | unknownKeyword {word : String} (hword : LogicalOp.ofKeyword? word = none) :
      Blames (.unknownKeyword word) (.word word)
  | keywordMissing {lexeme : Lexeme} (hparen : lexeme ≠ .closeParen)
      (hbracket : lexeme ≠ .closeBracket) (hword : lexeme.isWord = false) :
      Blames .keywordMissing lexeme

/-- The faults of a text that ends too early. -/
inductive Fault.Missing : Fault → Prop
  | term : Missing .termMissing
  | operator (path : String) : Missing (.operatorMissing path)
  | value (op : CompareOp) : Missing (.valueMissing op)

def Context.Anchored (tokens : List Token) (context : Context) : Prop :=
  ∀ frame ∈ context.frames,
    ∃ lexeme, bracket? frame.opening.bracket = some lexeme ∧ ⟨lexeme, frame.position⟩ ∈ tokens

def State.Anchored (tokens : List Token) : State → Prop
  | term context => context.Anchored tokens
  | group context position => context.Anchored tokens ∧ ⟨.word "not", position⟩ ∈ tokens
  | operator context _ _ => context.Anchored tokens
  | value context _ _ => context.Anchored tokens
  | afterPresent context _ => context.Anchored tokens
  | keyword context _ => context.Anchored tokens

/-- Reading goes on with anchored positions, or stops at a token that is to blame. -/
inductive Anchors (tokens : List Token) : Except (Fault × Nat) State → Prop
  | ok {state : State} (h : state.Anchored tokens) : Anchors tokens (.ok state)
  | error {fault : Fault} {lexeme : Lexeme} {position : Nat} (h : ⟨lexeme, position⟩ ∈ tokens)
      (hfault : Blames fault lexeme) : Anchors tokens (.error (fault, position))

variable {tokens : List Token} {token : Token} {context : Context} {term : Expression} {state : State}

theorem Context.Anchored.enter (h : context.Anchored tokens) {opening : Opening} {lexeme : Lexeme}
    {position : Nat} (hlexeme : bracket? opening.bracket = some lexeme)
    (hmem : ⟨lexeme, position⟩ ∈ tokens) : (context.enter opening position).Anchored tokens := by
  intro frame hframe
  rcases List.mem_cons.1 hframe with rfl | hframe
  · exact ⟨lexeme, hlexeme, hmem⟩
  · exact h frame hframe

theorem Context.Anchored.leave {frame : Frame} {frames : List Frame} {before inner : Level}
    (h : Context.Anchored tokens ⟨frame :: frames, inner⟩) :
    Context.Anchored tokens ⟨frames, before⟩ :=
  fun outer houter => h outer (List.mem_cons_of_mem frame houter)

/-- Behind a whole term reading goes on anchored, or the token there is to blame. -/
theorem anchors_afterTerm (h : context.Anchored tokens) (htoken : token ∈ tokens)
    (term : Expression) : Anchors tokens (afterTerm context term token) := by
  obtain ⟨lexeme, position⟩ := token
  obtain ⟨frames, before⟩ := context
  cases lexeme with
  | word word =>
    simp only [afterTerm]
    split
    · exact .ok h
    · rename_i hop
      exact .error htoken (.unknownKeyword hop)
  | closeParen =>
    cases frames with
    | nil => exact .error htoken (.unmatched rfl)
    | cons frame frames =>
      obtain ⟨opening, start, outer⟩ := frame
      cases opening with
      | group => exact .ok h.leave
      | negation => exact .ok h.leave
      | values parent => exact .error htoken (.unmatched rfl)
  | closeBracket =>
    cases frames with
    | nil => exact .error htoken (.unmatched rfl)
    | cons frame frames =>
      obtain ⟨opening, start, outer⟩ := frame
      cases opening with
      | group => exact .error htoken (.unmatched rfl)
      | negation => exact .error htoken (.unmatched rfl)
      | values parent => exact .ok h.leave
  | _ => exact .error htoken (.keywordMissing (by simp) (by simp) rfl)

/-- One step: the positions stay anchored, and a fault is at a token. -/
theorem anchors_step (h : state.Anchored tokens) (htoken : token ∈ tokens) :
    Anchors tokens (step state token) := by
  obtain ⟨lexeme, position⟩ := token
  cases state with
  | term context =>
    cases lexeme with
    | openParen => exact .ok (h.enter rfl htoken)
    | word word =>
      simp only [step]
      split
      · rename_i hword
        subst hword
        exact .ok ⟨h, htoken⟩
      split
      · exact .ok h
      · rename_i fault hfault
        exact .error htoken (.invalidPath hfault)
    | _ => exact .error htoken (.notAPath (by simp) rfl)
  | group context start =>
    cases lexeme with
    | openParen => exact .ok (h.1.enter rfl htoken)
    | _ => exact .error h.2 .negationWithoutGroup
  | operator context text path =>
    cases lexeme with
    | openBracket => exact .ok (h.enter rfl htoken)
    | word word =>
      simp only [step]
      split
      · exact .ok h
      · exact .ok h
      · rename_i hop
        exact .error htoken (.unknownOperator hop)
    | _ => exact .error htoken (.notAnOperator text (by simp) rfl)
  | value context path op =>
    cases lexeme with
    | quoted text => exact .ok h
    | word word =>
      simp only [step]
      split
      · exact .ok h
      · rename_i fault hfault
        exact .error htoken (.value hfault)
    | openParen => exact .error htoken (.valueMissing op (c := '(') rfl)
    | closeParen => exact .error htoken (.valueMissing op (c := ')') rfl)
    | openBracket => exact .error htoken (.valueMissing op (c := '[') rfl)
    | closeBracket => exact .error htoken (.valueMissing op (c := ']') rfl)
  | afterPresent context path =>
    cases lexeme with
    | quoted text => exact .error htoken (.needlessQuoted text)
    | word word =>
      simp only [step]
      split
      · rename_i hop
        exact .error htoken (.needlessWord (Option.isNone_iff_eq_none.1 hop))
      · exact anchors_afterTerm h htoken (.present path)
    | _ => exact anchors_afterTerm h htoken (.present path)
  | keyword context term => exact anchors_afterTerm h htoken term

/-- A whole run over some of the tokens. -/
theorem anchors_run {read : List Token} (h : state.Anchored tokens) (hread : read ⊆ tokens) :
    Anchors tokens (read.foldlM step state) := by
  induction read generalizing state with
  | nil => exact .ok h
  | cons token read ih =>
    obtain ⟨htoken, hread⟩ := List.cons_subset.1 hread
    have hstep := anchors_step h htoken
    rw [List.foldlM_cons]
    generalize step state token = result at hstep
    cases hstep with
    | ok hnext => exact ih hnext hread
    | error hmem hfault => exact .error hmem hfault

/-- At the end an open bracket is to blame. -/
theorem finish_eq_error {fault : Fault} {position : Nat} (h : context.Anchored tokens)
    (herror : finish context term = .error (fault, position)) :
    ∃ lexeme, ⟨lexeme, position⟩ ∈ tokens ∧ Blames fault lexeme := by
  unfold finish at herror
  split at herror
  · simp at herror
  · rename_i frame frames hframes
    obtain ⟨rfl, rfl⟩ := Prod.mk.inj (Except.error.inj herror)
    obtain ⟨lexeme, hlexeme, hmem⟩ := h frame (by simp [hframes])
    exact ⟨lexeme, hmem, .unmatched hlexeme⟩

/-- A fault behind the last token is at the end, unless it is that of something left open. -/
theorem State.finish_eq_error {fault : Fault} {stop position : Nat} (h : state.Anchored tokens)
    (herror : state.finish stop = .error (fault, position)) :
    (∃ lexeme, ⟨lexeme, position⟩ ∈ tokens ∧ Blames fault lexeme) ∨
      position = stop ∧ fault.Missing := by
  cases state with
  | term context =>
    obtain ⟨rfl, rfl⟩ := Prod.mk.inj (Except.error.inj herror)
    exact .inr ⟨rfl, .term⟩
  | group context start =>
    obtain ⟨rfl, rfl⟩ := Prod.mk.inj (Except.error.inj herror)
    exact .inl ⟨.word "not", h.2, .negationWithoutGroup⟩
  | operator context text path =>
    obtain ⟨rfl, rfl⟩ := Prod.mk.inj (Except.error.inj herror)
    exact .inr ⟨rfl, .operator text⟩
  | value context path op =>
    obtain ⟨rfl, rfl⟩ := Prod.mk.inj (Except.error.inj herror)
    exact .inr ⟨rfl, .value op⟩
  | afterPresent context path => exact .inl (Filter.finish_eq_error h herror)
  | keyword context term => exact .inl (Filter.finish_eq_error h herror)

/-- A text that is no filter is blamed on one of its tokens or on its end. -/
theorem parseTokens_eq_error {fault : Fault} {stop position : Nat}
    (herror : parseTokens stop tokens = .error (fault, position)) :
    (∃ lexeme, ⟨lexeme, position⟩ ∈ tokens ∧ Blames fault lexeme) ∨
      position = stop ∧ fault.Missing := by
  have hinitial : State.initial.Anchored tokens := fun frame hframe => by simp at hframe
  have hrun := anchors_run hinitial (List.Subset.refl tokens)
  unfold parseTokens at herror
  generalize tokens.foldlM step State.initial = result at hrun herror
  cases hrun with
  | ok hstate => exact State.finish_eq_error hstate herror
  | error hmem hfault =>
    obtain ⟨rfl, rfl⟩ := Prod.mk.inj (Except.error.inj herror)
    exact .inl ⟨_, hmem, hfault⟩

/-- The position of a token has whole characters in front of it. -/
theorem exists_front_of_mem {text : String} (htokens : tokenize text = .ok tokens)
    (htoken : token ∈ tokens) : ∃ front rest, text.toList = front ++ rest ∧
      byteCount front = token.position := by
  obtain ⟨layout, rfl, rfl⟩ := tokenize_eq_ok_iff.1 htokens
  obtain ⟨before, piece, after, hpieces, rfl⟩ := mem_tokensFrom htoken
  refine ⟨before.flatMap Piece.chars ++ piece.blank,
    piece.source ++ (after.flatMap Piece.chars ++ layout.tail), ?_, (Nat.zero_add _).symm⟩
  simp only [Layout.text, String.toList_ofList, Layout.chars, hpieces, List.flatMap_append,
    List.flatMap_cons, Piece.chars, List.append_assoc]

/-- A place behind whole characters shows the piece of text that starts there. -/
theorem place_of_front {text : String} {front rest : List Char} {position : Nat}
    (htext : text.toList = front ++ rest) (hposition : byteCount front = position) (fault : Fault) :
    (SyntaxError.at text fault position).place = ⟨position, String.ofList (rest.take 24)⟩ := by
  subst hposition
  rw [← String.ofList_toList (s := text), htext]
  exact Place.of_byteCount front rest

/-- A text is refused at a token that is to blame, at the quote of a literal that is never closed, at
the end where something is missing, or at the start if it has no tokens. This position is that of a
character or the end, and the fragment is the text from there, up to 24 characters. -/
theorem fault_place {text : String} {error : SyntaxError} (h : parse text = .error error) :
    (∃ front rest, text.toList = front ++ rest ∧
      error.place = ⟨byteCount front, String.ofList (rest.take 24)⟩) ∧
    ((∃ tokens lexeme, tokenize text = .ok tokens ∧ ⟨lexeme, error.place.position⟩ ∈ tokens ∧
        Blames error.fault lexeme) ∨
      (∃ (layout : Layout) (after : List Char), text.toList = layout.chars ++ '"' :: after ∧
        Unclosed after ∧ error.place.position = byteCount layout.chars ∧
        error.fault = .unterminatedLiteral) ∨
      (error.place.position = byteCount text.toList ∧ error.fault.Missing) ∨
      (tokenize text = .ok [] ∧ error.place.position = 0 ∧ error.fault = .emptyFilter)) := by
  unfold parse at h
  split at h
  · rename_i unclosed hunclosed
    obtain rfl := Except.error.inj h
    obtain ⟨layout, after, htext, hafter, rfl⟩ := tokenize_eq_error_iff.1 hunclosed
    exact ⟨⟨_, _, htext, rfl⟩, .inr (.inl ⟨layout, after, htext, hafter, rfl, rfl⟩)⟩
  · rename_i htokens
    obtain rfl := Except.error.inj h
    rw [place_of_front (List.nil_append text.toList).symm byteCount_nil]
    exact ⟨⟨[], text.toList, rfl, rfl⟩, .inr (.inr (.inr ⟨htokens, rfl, rfl⟩))⟩
  · rename_i tokens _ htokens
    split at h
    · simp at h
    rename_i fault position hfault
    obtain rfl := Except.error.inj h
    rcases parseTokens_eq_error hfault with ⟨lexeme, hmem, hblames⟩ | ⟨rfl, hmissing⟩
    · obtain ⟨front, rest, htext, hposition⟩ := exists_front_of_mem htokens hmem
      rw [place_of_front htext hposition]
      exact ⟨⟨front, rest, htext, by rw [hposition]⟩, .inl ⟨tokens, lexeme, htokens, hmem, hblames⟩⟩
    · rw [place_of_front (List.append_nil text.toList).symm rfl]
      exact ⟨⟨text.toList, [], (List.append_nil _).symm, rfl⟩, .inr (.inr (.inl ⟨rfl, hmissing⟩))⟩

/-- A bracket that is left open behind a character of two bytes. -/
theorem fault_place_sample : ∃ text error, text = "title eq \"é\" and (active pr" ∧
    error = ⟨.unmatched '(', 18, "(active pr"⟩ ∧ parse text = .error error ∧
    (∃ front rest, text.toList = front ++ rest ∧
      error.place = ⟨byteCount front, String.ofList (rest.take 24)⟩) ∧
    ∃ tokens lexeme, tokenize text = .ok tokens ∧ ⟨lexeme, error.place.position⟩ ∈ tokens ∧
      Blames error.fault lexeme := by
  have hparse : parse "title eq \"é\" and (active pr" =
      .error ⟨.unmatched '(', 18, "(active pr"⟩ := by decide +kernel
  obtain ⟨hfront, htoken | ⟨-, -, -, -, -, hfault⟩ | ⟨hstop, -⟩ | ⟨-, hstart, -⟩⟩ :=
    fault_place hparse
  · exact ⟨_, _, rfl, rfl, hparse, hfront, htoken⟩
  · cases hfault
  · exact absurd hstop (by decide)
  · exact absurd hstart (by decide)

end Scim.Filter
