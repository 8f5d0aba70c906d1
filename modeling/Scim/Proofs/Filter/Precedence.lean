import Mathlib.Tactic.ByContra
import Mathlib.Tactic.TFAE
import Scim.Filter.Evaluation
import Scim.Proofs.Filter.Combine

/-!
What the expression of a level means. Conventionally a level is the disjunction of its maximal runs
of terms joined by `and`. Since every `and` joins the atoms at its own position while the atoms get
fewer, a second `and` misses its terms. So the expression has the conventional meaning exactly if the
level has no `or` or at most one `and`.
-/
namespace Scim

def LogicalOp.truth : LogicalOp → Bool → Bool → Bool
  | and, left, right => left && right
  | or, left, right => left || right

/-- A logical expression has the truth value of its operands' truth values. -/
theorem Config.holds_logical (config : Config) (document : Json) (op : LogicalOp)
    (left right : Expression) : config.holds (.logical op left right) document =
      op.truth (config.holds left document) (config.holds right document) := by
  cases op <;> rfl

namespace Filter

inductive Joined (α : Type) where
  | term (value : α)
  | join (op : LogicalOp) (left right : Joined α)

def Joined.truth {α : Type} (values : α → Bool) : Joined α → Bool
  | .term value => values value
  | .join op left right => op.truth (left.truth values) (right.truth values)

def numbered (ops : List LogicalOp) : List (LogicalOp × Nat) := ops.zipIdx 1

def termAt {α : Type} (first : α) (rest : List (LogicalOp × α)) (number : Nat) : α :=
  (first :: rest.map Prod.snd).getD number first

/-- The tree of a level with these keywords. Its terms are their numbers. -/
def levelTree (ops : List LogicalOp) : Joined Nat :=
  combine Joined.join (.term 0) ((numbered ops).map fun term => (term.1, .term term.2))

def andRuns {α : Type} (first : α) : List (LogicalOp × α) → List (List α)
  | [] => [[first]]
  | (.and, next) :: rest => (andRuns next rest).modifyHead (first :: ·)
  | (.or, next) :: rest => [first] :: andRuns next rest

/-- The truth of a level when `and` binds tighter than `or`. -/
def conventional {α : Type} (values : α → Bool) (first : α) (rest : List (LogicalOp × α)) : Bool :=
  (andRuns first rest).any fun run => run.all values

theorem andRuns_map {α β : Type} (f : α → β) (first : α) (rest : List (LogicalOp × α)) :
    andRuns (f first) (rest.map fun term => (term.1, f term.2)) =
      (andRuns first rest).map (List.map f) := by
  induction rest generalizing first with
  | nil => rfl
  | cons term rest ih =>
    obtain ⟨op, next⟩ := term
    cases op with
    | and =>
      rw [List.map_cons, andRuns, andRuns, ih]
      cases andRuns next rest <;> rfl
    | or => rw [List.map_cons, andRuns, andRuns, ih, List.map_cons, List.map_cons, List.map_nil]

theorem conventional_map {α : Type} (values : α → Bool) (first : α) (rest : List (LogicalOp × α)) :
    conventional id (values first) (rest.map fun term => (term.1, values term.2)) =
      conventional values first rest := by
  rw [conventional, andRuns_map, List.any_map, conventional]
  simp only [Function.comp_def, List.all_map, id]

variable {first : Bool} {rest : List (LogicalOp × Bool)} {ops : List LogicalOp}

/-- An `or` ends the run in front of it. -/
theorem conventional_or (first next : Bool) (rest : List (LogicalOp × Bool)) :
    conventional id first ((.or, next) :: rest) = (first || conventional id next rest) := by
  simp [conventional, andRuns]

/-- A term may be joined with the one behind an `and` at once. -/
theorem conventional_and (first next : Bool) (rest : List (LogicalOp × Bool)) :
    conventional id first ((.and, next) :: rest) = conventional id (first && next) rest := by
  cases rest with
  | nil => simp [conventional, andRuns]
  | cons term rest =>
    obtain ⟨op, last⟩ := term
    cases op with
    | and =>
      simp only [conventional, andRuns]
      cases andRuns last rest <;> simp [Bool.and_assoc]
    | or => simp [conventional, andRuns]

theorem conventional_of_all_or (h : ∀ term ∈ rest, term.1 = .or) :
    conventional id first rest = (first || (rest.map Prod.snd).any id) := by
  induction rest generalizing first with
  | nil => simp [conventional, andRuns]
  | cons term rest ih =>
    obtain ⟨op, next⟩ := term
    obtain rfl : op = .or := h _ List.mem_cons_self
    rw [conventional_or, ih fun other hother => h other (List.mem_cons_of_mem _ hother)]
    rfl

theorem conventional_of_all_and (h : ∀ term ∈ rest, term.1 = .and) :
    conventional id first rest = (first && (rest.map Prod.snd).all id) := by
  induction rest generalizing first with
  | nil => simp [conventional, andRuns]
  | cons term rest ih =>
    obtain ⟨op, next⟩ := term
    obtain rfl : op = .and := h _ List.mem_cons_self
    rw [conventional_and, ih fun other hother => h other (List.mem_cons_of_mem _ hother),
      List.map_cons, List.all_cons, Bool.and_assoc]
    rfl

/-- Without a true term there is no true run. -/
theorem conventional_of_all_false (h : ∀ term ∈ rest, term.2 = false) :
    conventional id false rest = false := by
  induction rest with
  | nil => rfl
  | cons term rest ih =>
    obtain ⟨op, next⟩ := term
    obtain rfl : next = false := h _ List.mem_cons_self
    have hrest := ih fun other hother => h other (List.mem_cons_of_mem _ hother)
    cases op with
    | and => rw [conventional_and, Bool.and_self, hrest]
    | or => rw [conventional_or, hrest, Bool.or_self]

theorem foldRight_and (first : Bool) (rest : List Bool) :
    foldRight LogicalOp.truth .and first rest = (first && rest.all id) := by
  induction rest generalizing first with
  | nil => simp [foldRight]
  | cons next rest ih =>
    rw [foldRight, ih]
    rfl

theorem foldRight_or (first : Bool) (rest : List Bool) :
    foldRight LogicalOp.truth .or first rest = (first || rest.any id) := by
  induction rest generalizing first with
  | nil => simp [foldRight]
  | cons next rest ih =>
    rw [foldRight, ih]
    rfl

theorem foldLeft_or (first : Bool) (rest : List Bool) :
    foldLeft LogicalOp.truth .or first rest = (first || rest.any id) := by
  induction rest generalizing first with
  | nil => simp [foldLeft]
  | cons next rest ih =>
    have hnext := ih (LogicalOp.truth .or first next)
    rw [LogicalOp.truth, Bool.or_assoc] at hnext
    exact hnext

/-- The operands of the final `or` hold where an atom holds. -/
theorem any_orOperands (atoms : List (Atom Bool)) :
    (orOperands LogicalOp.truth atoms).any id = (atoms.map Atom.value).any id := by
  simp only [orOperands]
  split
  · rename_i first next rest htrailing
    have hatoms : atoms.map Atom.value =
        (atoms.take (atoms.length - trailingTerms atoms)).map Atom.value ++ first :: next :: rest := by
      rw [← htrailing, ← List.map_append, List.take_append_drop]
    rw [hatoms, List.any_append, List.any_append, List.any_cons, List.any_nil, Bool.or_false,
      foldRight_or]
    rfl
  · rfl

def anyJoined (ops : List LogicalOp) (atoms : List (Atom Bool)) : Bool :=
  ((joinAnds LogicalOp.truth 0 ops atoms).map Atom.value).any id

theorem anyJoined_or (ops : List LogicalOp) (atom : Atom Bool) (atoms : List (Atom Bool)) :
    anyJoined (.or :: ops) (atom :: atoms) = (atom.value || anyJoined ops atoms) := by
  rw [anyJoined, joinAnds, joinAnds_succ]
  rfl

/-- An `and` uses up two atoms but only one keyword, so the next keyword stands between later
terms than before. -/
theorem anyJoined_and (ops : List LogicalOp) (left right : Atom Bool) (atoms : List (Atom Bool)) :
    anyJoined (.and :: ops) (left :: right :: atoms) =
      ((left.value && right.value) || anyJoined ops atoms) := by
  rw [anyJoined, joinAnds, joinAt, joinAnds_succ]
  rfl

/-- A level with both keywords means the disjunction of its atoms. -/
theorem combine_of_mixed (hor : .or ∈ rest.map Prod.fst) (hand : .and ∈ rest.map Prod.fst) :
    combine LogicalOp.truth first rest =
      anyJoined (rest.map Prod.fst) (singles (first :: rest.map Prod.snd)) := by
  obtain ⟨operand, operands, hoperands, hcombine⟩ :=
    exists_operands_of_mixed LogicalOp.truth first hor hand
  have hany := any_orOperands (joinAnds LogicalOp.truth 0 (rest.map Prod.fst)
    (singles (first :: rest.map Prod.snd)))
  rw [hoperands, List.any_cons] at hany
  rw [hcombine, foldLeft_or, anyJoined, ← hany]
  rfl

/-- A single `and` joins its two neighbours, as the convention has it. -/
theorem anyJoined_eq_conventional (h : (rest.map Prod.fst).count .and ≤ 1) :
    anyJoined (rest.map Prod.fst) (singles (first :: rest.map Prod.snd)) =
      conventional id first rest := by
  induction rest generalizing first with
  | nil => simp [anyJoined, joinAnds, singles, conventional, andRuns]
  | cons term rest ih =>
    obtain ⟨op, next⟩ := term
    cases op with
    | or =>
      have hrest : (rest.map Prod.fst).count .and ≤ 1 := by simpa using h
      rw [conventional_or, ← ih hrest]
      exact anyJoined_or _ _ _
    | and =>
      have hnone : LogicalOp.and ∉ rest.map Prod.fst := by
        rw [← List.count_eq_zero]
        simpa using h
      have hterms := all_or_of_notMem hnone
      have hops : ∀ op ∈ rest.map Prod.fst, op = .or := List.forall_mem_map.2 hterms
      have hvalues : (singles (rest.map Prod.snd)).map Atom.value = rest.map Prod.snd := by
        simp [singles, Function.comp_def]
      have hjoined : anyJoined (rest.map Prod.fst) (singles (rest.map Prod.snd)) =
          (rest.map Prod.snd).any id := by
        rw [anyJoined, joinAnds_of_all_or hops, hvalues]
      rw [conventional_and, conventional_of_all_or hterms, ← hjoined]
      exact anyJoined_and _ _ _ _

/-- Levels with a single kind of keyword or one `and` have their conventional truth. -/
theorem combine_eq_conventional
    (h : .or ∉ rest.map Prod.fst ∨ (rest.map Prod.fst).count .and ≤ 1) :
    combine LogicalOp.truth first rest = conventional id first rest := by
  by_cases hor : .or ∈ rest.map Prod.fst
  · by_cases hand : .and ∈ rest.map Prod.fst
    · rw [combine_of_mixed hor hand, anyJoined_eq_conventional (h.resolve_left (not_not_intro hor))]
    · rw [combine_of_all (all_or_of_notMem hand), conventional_of_all_or (all_or_of_notMem hand),
        foldRight_or]
  · rw [combine_of_all (all_and_of_notMem hor), conventional_of_all_and (all_and_of_notMem hor),
      foldRight_and]

def falseTerms (ops : List LogicalOp) : List (LogicalOp × Bool) := ops.map fun op => (op, false)

theorem map_fst_falseTerms (ops : List LogicalOp) : (falseTerms ops).map Prod.fst = ops := by
  simp [falseTerms, Function.comp_def]

theorem conventional_falseTerms (ops : List LogicalOp) :
    conventional id false (falseTerms ops) = false := by
  refine conventional_of_all_false fun term hterm => ?_
  obtain ⟨op, -, rfl⟩ := List.mem_map.1 hterm
  rfl

/-- The keywords stand one term too late here, so the first term is an atom of its own. It is true,
and the term that it should be joined with is not. -/
theorem exists_shifted (h : .and ∈ ops) :
    ∃ first rest, rest.map Prod.fst = ops ∧
      anyJoined (.or :: ops) (singles (first :: rest.map Prod.snd)) = true ∧
      conventional id first rest = false := by
  induction ops with
  | nil => simp at h
  | cons op ops ih =>
    cases op with
    | and =>
      refine ⟨true, (.and, false) :: falseTerms ops, ?_, ?_, ?_⟩
      · rw [List.map_cons, map_fst_falseTerms]
      · exact anyJoined_or _ _ _
      · rw [conventional_and, Bool.and_false, conventional_falseTerms]
    | or =>
      obtain ⟨first, rest, rfl, hjoined, hconventional⟩ := ih (by simpa using h)
      refine ⟨false, (.or, first) :: rest, rfl, ?_, ?_⟩
      · exact (anyJoined_or _ _ _).trans hjoined
      · rw [conventional_or, Bool.false_or, hconventional]

/-- With two `and`s some truth values make an unconventional level true. -/
theorem exists_anyJoined (h : 2 ≤ ops.count .and) :
    ∃ first rest, rest.map Prod.fst = ops ∧
      anyJoined ops (singles (first :: rest.map Prod.snd)) = true ∧
      conventional id first rest = false := by
  induction ops with
  | nil => simp at h
  | cons op ops ih =>
    cases op with
    | or =>
      obtain ⟨first, rest, rfl, hjoined, hconventional⟩ := ih (by simpa using h)
      refine ⟨false, (.or, first) :: rest, rfl, ?_, ?_⟩
      · exact (anyJoined_or _ _ _).trans hjoined
      · rw [conventional_or, Bool.false_or, hconventional]
    | and =>
      have hand : .and ∈ ops := by
        rw [← List.count_pos_iff]
        simpa using h
      cases ops with
      | nil => simp at hand
      | cons next ops =>
        cases next with
        | and =>
          refine ⟨true, (.and, true) :: (.and, false) :: falseTerms ops, ?_, ?_, ?_⟩
          · rw [List.map_cons, List.map_cons, map_fst_falseTerms]
          · exact anyJoined_and _ _ _ _
          · rw [conventional_and, conventional_and, Bool.and_false, conventional_falseTerms]
        | or =>
          obtain ⟨first, rest, rfl, hjoined, hconventional⟩ := exists_shifted (by simpa using hand)
          refine ⟨false, (.and, false) :: (.or, first) :: rest, rfl, ?_, ?_⟩
          · exact (anyJoined_and _ _ _ _).trans hjoined
          · rw [conventional_and, Bool.and_self, conventional_or, Bool.false_or, hconventional]

theorem map_termAt {α : Type} (first : α) (rest : List (LogicalOp × α)) :
    (List.range ((rest.map Prod.fst).length + 1)).map (termAt first rest) =
      first :: rest.map Prod.snd := by
  apply List.ext_getElem
  · simp
  · intro number hnumber hnumber'
    rw [List.getElem_map, List.getElem_range, termAt, List.getD_eq_getElem?_getD,
      List.getElem?_eq_getElem hnumber', Option.getD_some]

theorem map_numbered_termAt {α : Type} (first : α) (rest : List (LogicalOp × α)) :
    (numbered (rest.map Prod.fst)).map (fun term => (term.1, termAt first rest term.2)) = rest := by
  apply List.ext_getElem
  · simp [numbered]
  · intro number hnumber hnumber'
    simp [numbered, termAt, Nat.add_comm 1, hnumber']

theorem exists_values (first : Bool) (rest : List (LogicalOp × Bool)) :
    ∃ values : Nat → Bool, values 0 = first ∧
      (numbered (rest.map Prod.fst)).map (fun term => (term.1, values term.2)) = rest :=
  ⟨termAt first rest, rfl, map_numbered_termAt first rest⟩

/-- The tree of a level has the truth value that the terms combine to. -/
theorem truth_levelTree (ops : List LogicalOp) (values : Nat → Bool) :
    (levelTree ops).truth values =
      combine LogicalOp.truth (values 0)
        ((numbered ops).map fun term => (term.1, values term.2)) := by
  have hjoin : ∀ op left right, (Joined.join op left right).truth values =
      op.truth (left.truth values) (right.truth values) := fun _ _ _ => rfl
  rw [levelTree, map_combine (f := Joined.truth values) hjoin, List.map_map]
  rfl

/-- The expression of a level is evaluated like the tree of its numbered terms. -/
theorem holds_combine (config : Config) (terms : Nat → Expression) (document : Json)
    (ops : List LogicalOp) :
    config.holds (combine Expression.logical (terms 0)
        ((numbered ops).map fun term => (term.1, terms term.2))) document =
      (levelTree ops).truth fun i => config.holds (terms i) document := by
  rw [truth_levelTree, map_combine (f := fun term => config.holds term document)
    (config.holds_logical document), List.map_map]
  rfl

/-- A level with an `or` and two `and`s is unconventional for some truth values. -/
theorem exists_truth_ne_conventional (hor : .or ∈ ops) (hand : 2 ≤ ops.count .and) :
    ∃ values : Nat → Bool,
      (levelTree ops).truth values ≠ conventional values 0 (numbered ops) := by
  obtain ⟨first, rest, rfl, hjoined, hconventional⟩ := exists_anyJoined hand
  obtain ⟨values, hfirst, hrest⟩ := exists_values first rest
  have hmem : .and ∈ rest.map Prod.fst := List.count_pos_iff.1 (by omega)
  refine ⟨values, fun heq => ?_⟩
  rw [truth_levelTree, ← conventional_map, hfirst, hrest, combine_of_mixed hor hmem, hjoined,
    hconventional] at heq
  exact Bool.noConfusion heq

def constantTerm : Bool → Expression
  | true => .negation (.present ⟨none, ["a"]⟩)
  | false => .present ⟨none, ["a"]⟩

theorem holds_constantTerm (value : Bool) : Config.holds {} (constantTerm value) .null = value := by
  cases value <;> rfl

/-- The expression of a level has the conventional meaning, for all truth values of its terms, if and
only if the level has no `or` or at most one `and`. This is so for the tree of its numbered terms, and
for filters of any terms evaluated on any document. -/
theorem truth_level_tfae (ops : List LogicalOp) : [
    ∀ values : Nat → Bool, (levelTree ops).truth values = conventional values 0 (numbered ops),
    ∀ (config : Config) (terms : Nat → Expression) (document : Json),
      config.holds (combine Expression.logical (terms 0)
          ((numbered ops).map fun term => (term.1, terms term.2))) document =
        conventional (fun i => config.holds (terms i) document) 0 (numbered ops),
    .or ∉ ops ∨ ops.count .and ≤ 1].TFAE := by
  tfae_have 1 → 2 := fun h config terms document => by rw [holds_combine, h]
  tfae_have 2 → 1 := by
    intro h values
    have hvalues := h {} (fun i => constantTerm (values i)) .null
    have hcombine := holds_combine {} (fun i => constantTerm (values i)) .null ops
    simp only [holds_constantTerm] at hvalues hcombine
    rw [← hcombine, hvalues]
  tfae_have 1 → 3 := by
    intro h
    by_contra hnot
    obtain ⟨hor, hand⟩ := not_or.1 hnot
    obtain ⟨values, hvalues⟩ := exists_truth_ne_conventional (not_not.1 hor) (Nat.not_le.1 hand)
    exact hvalues (h values)
  tfae_have 3 → 1 := by
    intro h values
    have hops : ((numbered ops).map fun term => (term.1, values term.2)).map Prod.fst = ops := by
      simp [numbered, Function.comp_def]
    rw [← hops] at h
    rw [truth_levelTree, combine_eq_conventional h, conventional_map]
  tfae_finish

end Filter

end Scim
