import Scim.Proofs.Filter.Grammar
import Scim.Proofs.Result

/-!
What the machine that reads filters has read up to any point is derived in the grammar, except for
the brackets still open and the levels that they interrupt. One step keeps this, so a run does, and
a text that ends outside all brackets is a sentence.
-/
namespace Scim.Filter

/-- The terms of a level read so far, each with the keyword after it. -/
inductive Before : List Lexeme → Level → Prop
  | nil : Before [] []
  | snoc {v w : List Lexeme} {before : Level} {term : Expression} {op : LogicalOp}
      (hbefore : Before v before) (hterm : Term w term) :
      Before (v ++ (w ++ [.word op.keyword])) ((term, op) :: before)

inductive Opened : List Lexeme → Opening → Prop
  | group : Opened [.openParen] .group
  | negation : Opened [.word "not", .openParen] .negation
  | values {word : String} {path : AttributePath} (hword : Names word path) :
      Opened [.word word, .openBracket] (.values path)

/-- The levels around the innermost one, up to their open brackets. -/
inductive Around : List Lexeme → List Frame → Prop
  | nil : Around [] []
  | frame {u v w : List Lexeme} {frames : List Frame} {before : Level} {opening : Opening}
      {position : Nat} (hframes : Around u frames) (hbefore : Before v before)
      (hopening : Opened w opening) :
      Around (u ++ v ++ w) (⟨opening, position, before⟩ :: frames)

def Context.Read (context : Context) (w : List Lexeme) : Prop :=
  ∃ u v, w = u ++ v ∧ Around u context.frames ∧ Before v context.before

/-- The lexemes read lead to a state. -/
inductive Reached : List Lexeme → State → Prop
  | term {w : List Lexeme} {context : Context} (hw : context.Read w) : Reached w (.term context)
  | group {w : List Lexeme} {context : Context} {position : Nat} (hw : context.Read w) :
      Reached (w ++ [.word "not"]) (.group context position)
  | operator {w : List Lexeme} {context : Context} {word : String} {path : AttributePath}
      (hw : context.Read w) (hword : Names word path) :
      Reached (w ++ [.word word]) (.operator context word path)
  | value {w : List Lexeme} {context : Context} {word : String} {path : AttributePath}
      {op : CompareOp} (hw : context.Read w) (hword : Names word path) (hop : op ≠ .pr) :
      Reached (w ++ [.word word, .word op.keyword]) (.value context path op)
  | afterPresent {w : List Lexeme} {context : Context} {word : String} {path : AttributePath}
      (hw : context.Read w) (hword : Names word path) :
      Reached (w ++ [.word word, .word "pr"]) (.afterPresent context path)
  | keyword {v w : List Lexeme} {context : Context} {term : Expression} (hw : context.Read w)
      (hterm : Term v term) : Reached (w ++ v) (.keyword context term)

/-- The terms before a term, the term and those behind it are a sentence. -/
theorem sentence_of_before {w : List Lexeme} {before : Level} (hbefore : Before w before) :
    ∀ {v u : List Lexeme} {term : Expression} {rest : List (LogicalOp × Expression)},
      Term v term → Further u rest →
      Sentence (w ++ (v ++ u))
        (combine Expression.logical (before.arrange term rest).1 (before.arrange term rest).2) := by
  induction hbefore with
  | nil =>
    intro v u term rest hterm hrest
    simpa only [List.nil_append, Level.arrange] using Sentence.level hterm hrest
  | @snoc v' w' before' term' op hbefore hterm' ih =>
    intro v u term rest hterm hrest
    have h := ih hterm' (@Further.cons op _ _ _ _ hterm hrest)
    simpa only [List.append_assoc, List.cons_append, List.nil_append, Level.arrange] using h

/-- The terms of a level up to its last one are a sentence. -/
theorem Before.finish {v w : List Lexeme} {before : Level} {last : Expression}
    (hbefore : Before v before) (hlast : Term w last) :
    Sentence (v ++ w) (before.finish last) := by
  have h := sentence_of_before hbefore hlast .nil
  rw [List.append_nil] at h
  exact h

theorem Context.Read.enter {context : Context} {u w : List Lexeme} (hw : context.Read w)
    {opening : Opening} (hopening : Opened u opening) (position : Nat) :
    (context.enter opening position).Read (w ++ u) := by
  obtain ⟨x, y, rfl, hframes, hbefore⟩ := hw
  exact ⟨x ++ y ++ u, [], (List.append_nil _).symm, .frame hframes hbefore hopening, .nil⟩

/-- Closing a bracket makes a term of the level inside and of what opened it. -/
theorem Opened.close {u w : List Lexeme} {opening : Opening} {e : Expression} {closer : Lexeme}
    (hopening : Opened u opening) (h : Sentence w e)
    (hcloser : closer = if opening.bracket = '(' then .closeParen else .closeBracket) :
    Term (u ++ (w ++ [closer])) (opening.close e) := by
  subst hcloser
  cases hopening with
  | group => exact .group h
  | negation => exact .negation h
  | values hword => exact .values hword h

theorem Context.Read.leave {frames : List Frame} {opening : Opening} {position : Nat}
    {before inner : Level} {v w : List Lexeme} {term : Expression} {closer : Lexeme}
    (hw : Context.Read ⟨⟨opening, position, before⟩ :: frames, inner⟩ w) (hterm : Term v term)
    (hcloser : closer = if opening.bracket = '(' then .closeParen else .closeBracket) :
    Reached (w ++ v ++ [closer])
      (.keyword ⟨frames, before⟩ (opening.close (inner.finish term))) := by
  obtain ⟨x, y, rfl, hframes, hinner⟩ := hw
  cases hframes with
  | @frame u' v' w' _ _ _ _ hframes hbefore hopening =>
    have hclosed := hopening.close (hinner.finish hterm) hcloser
    have hread : Context.Read ⟨frames, before⟩ (u' ++ v') := ⟨u', v', rfl, hframes, hbefore⟩
    simpa only [List.append_assoc] using Reached.keyword hread hclosed

/-- The token behind a whole term leads on, out of a bracket or to the next term. -/
theorem reached_afterTerm {context : Context} {v w : List Lexeme} {term : Expression}
    {token : Token} {state : State} (hw : context.Read w) (hterm : Term v term)
    (h : afterTerm context term token = .ok state) :
    Reached (w ++ v ++ [token.lexeme]) state := by
  obtain ⟨frames, before⟩ := context
  unfold afterTerm at h
  split at h
  · rename_i word hlexeme
    split at h
    · rename_i op hop
      obtain ⟨x, y, rfl, hframes, hbefore⟩ := hw
      rw [← Except.ok.inj h, hlexeme, ← LogicalOp.keyword_of_ofKeyword? hop]
      refine .term ⟨x, y ++ (v ++ [.word op.keyword]), ?_, hframes, hbefore.snoc hterm⟩
      simp only [List.append_assoc]
    · simp at h
  · rename_i position outer rest hlexeme hframes
    subst hframes
    rw [← Except.ok.inj h, hlexeme]
    exact hw.leave hterm rfl
  · rename_i position outer rest hlexeme hframes
    subst hframes
    rw [← Except.ok.inj h, hlexeme]
    exact hw.leave hterm rfl
  · rename_i parent position outer rest hlexeme hframes
    subst hframes
    rw [← Except.ok.inj h, hlexeme]
    exact hw.leave hterm rfl
  · simp at h
  · simp at h
  · simp at h

/-- One step: what has been read stays derived. -/
theorem reached_step {w : List Lexeme} {token : Token} {state next : State}
    (hw : Reached w state) (h : step state token = .ok next) :
    Reached (w ++ [token.lexeme]) next := by
  obtain ⟨lexeme, position⟩ := token
  cases hw with
  | term hw =>
    cases lexeme with
    | openParen =>
      rw [← Except.ok.inj h]
      exact .term (hw.enter .group position)
    | word word =>
      simp only [step] at h
      split at h
      · rename_i hnot
        rw [← Except.ok.inj h, hnot]
        exact .group hw
      · rename_i hnot
        split at h
        · rename_i path hpath
          rw [← Except.ok.inj h]
          exact .operator hw ⟨hnot, hpath⟩
        · simp at h
    | _ => simp [step] at h
  | group hw =>
    cases lexeme with
    | openParen =>
      rw [← Except.ok.inj h, List.append_assoc]
      exact .term (hw.enter .negation position)
    | _ => simp [step] at h
  | operator hw hword =>
    cases lexeme with
    | openBracket =>
      rw [← Except.ok.inj h, List.append_assoc]
      exact .term (hw.enter (.values hword) position)
    | word keyword =>
      simp only [step] at h
      split at h
      · rename_i hpr
        rw [← Except.ok.inj h, ← CompareOp.keyword_of_ofKeyword? hpr, List.append_assoc]
        exact .afterPresent hw hword
      · rename_i op hop hkeyword
        rw [← Except.ok.inj h, ← CompareOp.keyword_of_ofKeyword? hkeyword, List.append_assoc]
        exact .value hw hword hop
      · simp at h
    | _ => simp [step] at h
  | value hw hword hop =>
    rw [List.append_assoc]
    cases lexeme with
    | quoted text =>
      rw [← Except.ok.inj h]
      exact .keyword hw (.comparison hword hop (.quoted text))
    | word value =>
      simp only [step] at h
      split at h
      · rename_i term hterm
        rw [← Except.ok.inj h]
        exact .keyword hw (.comparison hword hop (bareTerm_eq_ok_iff.1 hterm))
      · simp at h
    | _ => simp [step] at h
  | afterPresent hw hword =>
    cases lexeme with
    | quoted text => simp [step] at h
    | word keyword =>
      simp only [step] at h
      split at h
      · simp at h
      · exact reached_afterTerm hw (.present hword) h
    | _ => exact reached_afterTerm hw (.present hword) h
  | keyword hw hterm => exact reached_afterTerm hw hterm h

/-- A whole run: what has been read is derived. -/
theorem reached_run {tokens : List Token} {w : List Lexeme} {state next : State}
    (hw : Reached w state) (h : tokens.foldlM step state = .ok next) :
    Reached (w ++ tokens.map Token.lexeme) next := by
  induction tokens generalizing w state with
  | nil =>
    obtain rfl : state = next := Except.ok.inj h
    simpa only [List.map_nil, List.append_nil] using hw
  | cons token tokens ih =>
    obtain ⟨middle, hstep, hrest⟩ := Except.foldlM_cons_eq_ok_iff.1 h
    simpa only [List.map_cons, List.append_assoc, List.cons_append, List.nil_append] using
      ih (reached_step hw hstep) hrest

theorem reached_initial : Reached [] State.initial :=
  .term ⟨[], [], rfl, .nil, .nil⟩

/-- A text can end where no bracket is open. -/
theorem sentence_of_finish {v w : List Lexeme} {context : Context} {term e : Expression}
    (hw : context.Read w) (hterm : Term v term) (h : finish context term = .ok e) :
    Sentence (w ++ v) e := by
  obtain ⟨frames, before⟩ := context
  cases frames with
  | nil =>
    obtain ⟨x, y, rfl, hframes, hbefore⟩ := hw
    cases hframes
    rw [← Except.ok.inj h]
    exact hbefore.finish hterm
  | cons frame frames => simp [finish] at h

theorem sentence_of_reached {w : List Lexeme} {state : State} {stop : Nat} {e : Expression}
    (hw : Reached w state) (h : state.finish stop = .ok e) : Sentence w e := by
  cases hw with
  | term => simp [State.finish] at h
  | group => simp [State.finish] at h
  | operator => simp [State.finish] at h
  | value => simp [State.finish] at h
  | afterPresent hw hword => exact sentence_of_finish hw (.present hword) h
  | keyword hw hterm => exact sentence_of_finish hw hterm h

/-- Whatever is read from tokens is derived by the grammar. -/
theorem sentence_of_parseTokens {tokens : List Token} {stop : Nat} {e : Expression}
    (h : parseTokens stop tokens = .ok e) : Sentence (tokens.map Token.lexeme) e := by
  obtain ⟨state, hrun, hfinish⟩ := Except.bind_eq_ok_iff.1 h
  exact sentence_of_reached (reached_run reached_initial hrun) hfinish

end Scim.Filter
