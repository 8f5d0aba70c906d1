import Scim.Proofs.Filter.Derived

/-!
The machine that reads filters runs through every term of the grammar, whatever surrounds the term,
and so through every sentence. Main statement: a text is read as an expression exactly if its lexemes
are a sentence that stands for the expression.
-/
namespace Scim.Filter

/-- A term has just been read. After a presence test the next token is looked at once more. -/
inductive State.Ends : State → Context → Expression → Prop
  | keyword (context : Context) (term : Expression) : Ends (.keyword context term) context term
  | afterPresent (context : Context) (path : AttributePath) :
      Ends (.afterPresent context path) context (.present path)

/-- The second look never refuses what may follow a term. -/
theorem State.Ends.step {state next : State} {context : Context} {term : Expression}
    {token : Token} (hends : state.Ends context term)
    (h : afterTerm context term token = .ok next) : step state token = .ok next := by
  cases hends with
  | keyword => exact h
  | afterPresent path =>
    obtain ⟨lexeme, position⟩ := token
    cases lexeme with
    | word word =>
      cases hop : LogicalOp.ofKeyword? word with
      | none => simp [afterTerm, hop] at h
      | some op => simpa [Filter.step, hop] using h
    | quoted text => simp [afterTerm] at h
    | _ => exact h

theorem State.Ends.finish {state : State} {context : Context} {term : Expression}
    (hends : state.Ends context term) (stop : Nat) :
    state.finish stop = Filter.finish context term := by
  cases hends <;> rfl

def Runs (tokens : List Token) (state : State) (context : Context) (term : Expression) : Prop :=
  ∃ next, tokens.foldlM step state = .ok next ∧ next.Ends context term

theorem Runs.append {left right : List Token} {state : State} {context context' : Context}
    {term term' : Expression} (hleft : Runs left state context term)
    (hright : ∀ next : State, next.Ends context term → Runs right next context' term') :
    Runs (left ++ right) state context' term' := by
  obtain ⟨middle, hmiddle, hends⟩ := hleft
  obtain ⟨next, hnext, hends'⟩ := hright middle hends
  refine ⟨next, ?_, hends'⟩
  rw [List.foldlM_append, hmiddle]
  exact hnext

theorem Runs.cons {token : Token} {tokens : List Token} {state next : State} {context : Context}
    {term : Expression} (hstep : step state token = .ok next) (h : Runs tokens next context term) :
    Runs (token :: tokens) state context term := by
  obtain ⟨last, hlast, hends⟩ := h
  refine ⟨last, ?_, hends⟩
  rw [List.foldlM_cons, hstep]
  exact hlast

/-- A bracket is closed after the last term of the level inside. -/
theorem Runs.closed {tokens : List Token} {state : State} {frames : List Frame} {before inner : Level}
    {opening : Opening} {position : Nat} {term : Expression} {closer : Token}
    (h : Runs tokens state ⟨⟨opening, position, before⟩ :: frames, inner⟩ term)
    (hcloser : closer.lexeme = if opening.bracket = '(' then .closeParen else .closeBracket) :
    Runs (tokens ++ [closer]) state ⟨frames, before⟩ (opening.close (inner.finish term)) := by
  refine h.append fun next hends => ?_
  have hafter : afterTerm ⟨⟨opening, position, before⟩ :: frames, inner⟩ term closer =
      .ok (.keyword ⟨frames, before⟩ (opening.close (inner.finish term))) := by
    cases opening <;> simp [Opening.bracket] at hcloser <;> simp [afterTerm, hcloser]
  exact ⟨_, by rw [List.foldlM_cons, hends.step hafter]; rfl, .keyword _ _⟩

theorem Names.step {word : String} {path : AttributePath} (hword : Names word path)
    (context : Context) {token : Token} (htoken : token.lexeme = .word word) :
    step (.term context) token = .ok (.operator context word path) := by
  simp [Filter.step, htoken, hword.1, hword.2]

theorem Valued.step {path : AttributePath} {op : CompareOp} {value : Lexeme} {e : Expression}
    (hvalue : Valued path op value e) (context : Context) {token : Token}
    (htoken : token.lexeme = value) :
    step (.value context path op) token = .ok (.keyword context e) := by
  subst htoken
  obtain ⟨lexeme, position⟩ := token
  cases lexeme with
  | word word => simp [Filter.step, bareTerm_eq_ok_iff.2 hvalue]
  | quoted text =>
    cases hvalue
    rfl
  | _ => cases hvalue

mutual

theorem runs_term {w : List Lexeme} {e : Expression} :
    Term w e → ∀ (context : Context) (tokens : List Token), tokens.map Token.lexeme = w →
      Runs tokens (.term context) context e
  | .group h, context, tokens, htokens => by
    obtain ⟨opener, tokens, rfl, hopener, htokens⟩ := List.map_eq_cons_iff.1 htokens
    obtain ⟨inner, closing, rfl, hinner, hclosing⟩ := List.map_eq_append_iff.1 htokens
    obtain ⟨closer, rfl, hcloser⟩ := List.map_eq_singleton_iff.1 hclosing
    obtain ⟨before, last, rfl, hruns⟩ := runs_sentence h
    have hstep : step (.term context) opener =
        .ok (.term (context.enter .group opener.position)) := by simp [step, hopener]
    exact .cons hstep ((hruns _ inner hinner).closed hcloser)
  | .negation h, context, tokens, htokens => by
    obtain ⟨keyword, tokens, rfl, hkeyword, htokens⟩ := List.map_eq_cons_iff.1 htokens
    obtain ⟨opener, tokens, rfl, hopener, htokens⟩ := List.map_eq_cons_iff.1 htokens
    obtain ⟨inner, closing, rfl, hinner, hclosing⟩ := List.map_eq_append_iff.1 htokens
    obtain ⟨closer, rfl, hcloser⟩ := List.map_eq_singleton_iff.1 hclosing
    obtain ⟨before, last, rfl, hruns⟩ := runs_sentence h
    have hnot : step (.term context) keyword = .ok (.group context keyword.position) := by
      simp [step, hkeyword]
    have hstep : step (.group context keyword.position) opener =
        .ok (.term (context.enter .negation opener.position)) := by simp [step, hopener]
    exact .cons hnot (.cons hstep ((hruns _ inner hinner).closed hcloser))
  | @Term.values word path _ _ hword h, context, tokens, htokens => by
    obtain ⟨name, tokens, rfl, hname, htokens⟩ := List.map_eq_cons_iff.1 htokens
    obtain ⟨opener, tokens, rfl, hopener, htokens⟩ := List.map_eq_cons_iff.1 htokens
    obtain ⟨inner, closing, rfl, hinner, hclosing⟩ := List.map_eq_append_iff.1 htokens
    obtain ⟨closer, rfl, hcloser⟩ := List.map_eq_singleton_iff.1 hclosing
    obtain ⟨before, last, rfl, hruns⟩ := runs_sentence h
    have hstep : step (.operator context word path) opener =
        .ok (.term (context.enter (.values path) opener.position)) := by simp [step, hopener]
    exact .cons (hword.step context hname) (.cons hstep ((hruns _ inner hinner).closed hcloser))
  | @Term.present word path hword, context, tokens, htokens => by
    obtain ⟨name, tokens, rfl, hname, htokens⟩ := List.map_eq_cons_iff.1 htokens
    obtain ⟨keyword, rfl, hkeyword⟩ := List.map_eq_singleton_iff.1 htokens
    have hpr : CompareOp.ofKeyword? "pr" = some .pr := CompareOp.ofKeyword?_keyword .pr
    have hstep : step (.operator context word path) keyword =
        .ok (.afterPresent context path) := by simp [step, hkeyword, hpr]
    exact .cons (hword.step context hname) (.cons hstep ⟨_, rfl, .afterPresent _ _⟩)
  | @Term.comparison word path op _ _ hword hop hvalue, context, tokens, htokens => by
    obtain ⟨name, tokens, rfl, hname, htokens⟩ := List.map_eq_cons_iff.1 htokens
    obtain ⟨keyword, tokens, rfl, hkeyword, htokens⟩ := List.map_eq_cons_iff.1 htokens
    obtain ⟨value, rfl, hlexeme⟩ := List.map_eq_singleton_iff.1 htokens
    have hstep : step (.operator context word path) keyword = .ok (.value context path op) := by
      simp [step, hkeyword, CompareOp.ofKeyword?_keyword]
    have hlast := hvalue.step context hlexeme
    exact .cons (hword.step context hname)
      (.cons hstep (.cons hlast ⟨_, rfl, .keyword _ _⟩))

/-- The terms of a level are put in front of the level's next term as they are read. -/
theorem runs_further {w : List Lexeme} {rest : List (LogicalOp × Expression)} :
    Further w rest → ∀ (start : Level) (term : Expression),
      ∃ before last, Level.arrange before last [] = start.arrange term rest ∧
        ∀ (frames : List Frame) (state : State) (tokens : List Token),
          state.Ends ⟨frames, start⟩ term → tokens.map Token.lexeme = w →
          Runs tokens state ⟨frames, before⟩ last
  | .nil, start, term => by
    refine ⟨start, term, rfl, fun frames state tokens hends htokens => ?_⟩
    obtain rfl := List.map_eq_nil_iff.1 htokens
    exact ⟨state, rfl, hends⟩
  | @Further.cons op _ _ next rest hterm hrest, start, term => by
    obtain ⟨before, last, harrange, hruns⟩ := runs_further hrest ((term, op) :: start) next
    refine ⟨before, last, harrange, fun frames state tokens hends htokens => ?_⟩
    obtain ⟨keyword, tokens, rfl, hkeyword, htokens⟩ := List.map_eq_cons_iff.1 htokens
    obtain ⟨left, right, rfl, hleft, hright⟩ := List.map_eq_append_iff.1 htokens
    have hafter : afterTerm ⟨frames, start⟩ term keyword =
        .ok (.term ⟨frames, (term, op) :: start⟩) := by
      simp [afterTerm, hkeyword, LogicalOp.ofKeyword?_keyword]
    have hnext := runs_term hterm ⟨frames, (term, op) :: start⟩ left hleft
    exact .cons (hends.step hafter)
      (hnext.append fun middle hmiddle => hruns frames middle right hmiddle hright)

/-- Any sentence is read up to its last term, in any brackets. -/
theorem runs_sentence {w : List Lexeme} {e : Expression} :
    Sentence w e → ∃ before last, Level.finish before last = e ∧
      ∀ (frames : List Frame) (tokens : List Token), tokens.map Token.lexeme = w →
        Runs tokens (.term ⟨frames, []⟩) ⟨frames, before⟩ last
  | @Sentence.level _ _ first rest hfirst hrest => by
    obtain ⟨before, last, harrange, hruns⟩ := runs_further hrest [] first
    refine ⟨before, last, ?_, fun frames tokens htokens => ?_⟩
    · simp only [Level.finish, harrange, Level.arrange]
    · obtain ⟨left, right, rfl, hleft, hright⟩ := List.map_eq_append_iff.1 htokens
      have hterm := runs_term hfirst ⟨frames, []⟩ left hleft
      exact hterm.append fun middle hmiddle => hruns frames middle right hmiddle hright

end

/-- The tokens of a sentence are read as its expression. -/
theorem parseTokens_of_sentence {tokens : List Token} {e : Expression}
    (h : Sentence (tokens.map Token.lexeme) e) (stop : Nat) : parseTokens stop tokens = .ok e := by
  obtain ⟨before, last, rfl, hruns⟩ := runs_sentence h
  obtain ⟨state, hstate, hends⟩ := hruns [] tokens rfl
  have hinitial : tokens.foldlM step State.initial = .ok state := hstate
  rw [parseTokens, hinitial, Except.bind, hends.finish]
  rfl

theorem Term.ne_nil {w : List Lexeme} {e : Expression} (h : Term w e) : w ≠ [] := by
  cases h <;> simp

theorem Sentence.ne_nil {w : List Lexeme} {e : Expression} (h : Sentence w e) : w ≠ [] := by
  obtain ⟨hfirst, -⟩ := h
  simp [hfirst.ne_nil]

theorem sentence_of_parse {text : String} {e : Expression} (h : parse text = .ok e) :
    ∃ tokens, tokenize text = .ok tokens ∧ Sentence (tokens.map Token.lexeme) e := by
  unfold parse at h
  split at h
  · simp at h
  · simp at h
  · rename_i tokens _ htokens
    split at h
    · rename_i e' he
      obtain rfl := Except.ok.inj h
      exact ⟨tokens, htokens, sentence_of_parseTokens he⟩
    · simp at h

theorem parse_of_sentence {text : String} {tokens : List Token} {e : Expression}
    (htokens : tokenize text = .ok tokens) (h : Sentence (tokens.map Token.lexeme) e) :
    parse text = .ok e := by
  have hparse := parseTokens_of_sentence h (Text.byteCount text.toList)
  cases tokens with
  | nil => exact absurd rfl h.ne_nil
  | cons token tokens => simp only [parse, htokens, hparse]

/-- A text is read as an expression exactly if its tokens are a sentence of the grammar that stands
for this expression. -/
theorem parse_eq_ok_iff_sentence (text : String) (e : Expression) :
    parse text = .ok e ↔
      ∃ tokens, tokenize text = .ok tokens ∧ Sentence (tokens.map Token.lexeme) e := by
  constructor
  · exact sentence_of_parse
  · rintro ⟨tokens, htokens, h⟩
    exact parse_of_sentence htokens h

end Scim.Filter
