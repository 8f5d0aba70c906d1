import Scim.Proofs.Filter.Pairing
import Scim.Proofs.Filter.Precedence

/-!
The tree of a level. It holds every term once and in order, whatever the keywords are. In a mixed
level its operands are the pairs and the single terms, so an `and` never has an operand that is
joined itself.
-/
namespace Scim.Filter

variable {ops : List LogicalOp}

namespace Joined

variable {α : Type}

/-- What joined terms come to when the terms are read and joined. -/
def value {β : Type} (joined : LogicalOp → β → β → β) (read : α → β) : Joined α → β
  | term value => read value
  | join op left right => joined op (left.value joined read) (right.value joined read)

def terms : Joined α → List α
  | term value => [value]
  | join _ left right => left.terms ++ right.terms

def isTerm : Joined α → Prop
  | term _ => True
  | join _ _ _ => False

/-- Both operands of every `and` are terms. -/
def AndsJoinTerms : Joined α → Prop
  | term _ => True
  | join .and left right => left.isTerm ∧ right.isTerm
  | join .or left right => left.AndsJoinTerms ∧ right.AndsJoinTerms

end Joined

theorem Joined.AndsJoinTerms.of_isTerm {α : Type} {tree : Joined α} (h : tree.isTerm) :
    tree.AndsJoinTerms := by
  cases tree with
  | term value => exact trivial
  | join op left right => exact absurd h id

theorem andsJoinTerms_of_mem_levelOperands {α : Type} {terms : Nat → Joined α}
    (hterms : ∀ number, (terms number).isTerm) {operand : Joined α}
    (h : operand ∈ levelOperands Joined.join ops terms) : operand.AndsJoinTerms := by
  rcases List.mem_append.1 h with h | h
  · obtain ⟨number, -, h⟩ := List.mem_filterMap.1 h
    unfold operandAt at h
    split at h
    · rw [← Option.some.inj h]
      exact ⟨hterms number, hterms (number + 1)⟩
    split at h
    · simp at h
    · rw [← Option.some.inj h]
      exact .of_isTerm (hterms number)
  · have htail : ∀ term ∈ (List.range' (tailStart ops) (ops.length + 1 - tailStart ops)).map terms,
        term.AndsJoinTerms := by
      intro term hterm
      obtain ⟨number, -, rfl⟩ := List.mem_map.1 hterm
      exact .of_isTerm (hterms number)
    unfold tailOperands at h
    split at h
    · rename_i first next rest heq
      rw [heq] at htail
      rw [List.mem_singleton.1 h]
      have hjoin : ∀ left right : Joined α, left.AndsJoinTerms → right.AndsJoinTerms →
          (Joined.join .or left right).AndsJoinTerms := fun _ _ hleft hright => ⟨hleft, hright⟩
      exact foldRight_induction hjoin (htail first List.mem_cons_self)
        (fun term hterm => htail term (List.mem_cons_of_mem first hterm))
    · exact htail operand h

theorem map_fst_numbered {α : Type} (ops : List LogicalOp) (terms : Nat → α) :
    ((numbered ops).map fun term => (term.1, terms term.2)).map Prod.fst = ops := by
  simp [numbered, Function.comp_def]

theorem isTerm_termAt {α : Type} {first : Joined α} {rest : List (LogicalOp × Joined α)}
    (hfirst : first.isTerm) (hrest : ∀ term ∈ rest, term.2.isTerm) (number : Nat) :
    (termAt first rest number).isTerm := by
  rw [termAt, List.getD_eq_getElem?_getD]
  cases hterm : (first :: rest.map Prod.snd)[number]? with
  | none => exact hfirst
  | some term =>
    rcases List.mem_cons.1 (List.mem_of_getElem? hterm) with rfl | hmem
    · exact hfirst
    · obtain ⟨pair, hpair, rfl⟩ := List.mem_map.1 hmem
      exact hrest pair hpair

/-- In a mixed level no `and` joins anything but terms. -/
theorem andsJoinTerms_levelTree (hand : .and ∈ ops) (hor : .or ∈ ops) :
    (levelTree ops).AndsJoinTerms := by
  rw [← map_fst_numbered ops (Joined.term : Nat → Joined Nat)] at hand hor
  obtain ⟨operand, operands, hoperands, hcombine⟩ :=
    exists_operands_of_mixed Joined.join (Joined.term 0) hor hand
  rw [← map_termAt, orOperands_joinAnds] at hoperands
  have hterms : ∀ number, (termAt (Joined.term 0)
      ((numbered ops).map fun term => (term.1, Joined.term term.2)) number).isTerm := by
    refine isTerm_termAt trivial fun term hterm => ?_
    obtain ⟨pair, -, rfl⟩ := List.mem_map.1 hterm
    exact trivial
  have hall : ∀ tree ∈ operand :: operands, tree.AndsJoinTerms := by
    rw [← hoperands]
    exact fun tree htree => andsJoinTerms_of_mem_levelOperands hterms htree
  have hjoin : ∀ left right : Joined Nat, left.AndsJoinTerms → right.AndsJoinTerms →
      (Joined.join .or left right).AndsJoinTerms := fun _ _ hleft hright => ⟨hleft, hright⟩
  rw [levelTree, hcombine]
  exact foldLeft_induction hjoin (hall operand List.mem_cons_self)
    (fun tree htree => hall tree (List.mem_cons_of_mem operand htree))

/-- Each term of a level stands in its tree once, and they stand in order. -/
theorem terms_levelTree (ops : List LogicalOp) :
    (levelTree ops).terms = List.range (ops.length + 1) := by
  have hjoin : ∀ op left right, (Joined.join op left right : Joined Nat).terms =
      appended op left.terms right.terms := fun _ _ _ => rfl
  have hnumbers : (numbered ops).map Prod.snd = List.range' 1 ops.length :=
    List.zipIdx_map_snd 1 ops
  have hterms : (((numbered ops).map fun term => (term.1, Joined.term term.2)).map fun term =>
      (term.1, term.2.terms)).map Prod.snd =
      (List.range' 1 ops.length).map fun number => [number] := by
    rw [← hnumbers, List.map_map, List.map_map, List.map_map]
    rfl
  rw [levelTree, map_combine (f := Joined.terms) hjoin, combine_appended, hterms, List.flatten_cons,
    ← List.flatMap_def, List.flatMap_singleton', List.range_eq_range', List.range'_succ]
  rfl

/-- What a level is joined to is told by its numbered tree. -/
theorem combine_eq_value {α : Type} (join : LogicalOp → α → α → α) (first : α)
    (rest : List (LogicalOp × α)) :
    combine join first rest =
      (levelTree (rest.map Prod.fst)).value join (termAt first rest) := by
  have hjoin : ∀ op left right, (Joined.join op left right).value join (termAt first rest) =
      join op (left.value join (termAt first rest)) (right.value join (termAt first rest)) :=
    fun _ _ _ => rfl
  have hrest := map_numbered_termAt first rest
  rw [levelTree, map_combine (f := Joined.value join (termAt first rest)) hjoin, List.map_map]
  exact congrArg (combine join first) hrest.symm

/-- The expression of a level in closed form. It is what the tree of the numbered terms says, and
every term stands in this tree once, in the order of the level. With both keywords it is the `or`
from the left of the pairs and the single terms, those at the end folded, and no `and` has an operand
that is joined itself. With one keyword it is the fold from the right. -/
theorem combine_closed {α : Type} (join : LogicalOp → α → α → α) (first : α)
    (rest : List (LogicalOp × α)) :
    combine join first rest = (levelTree (rest.map Prod.fst)).value join (termAt first rest) ∧
    (levelTree (rest.map Prod.fst)).terms = List.range (rest.length + 1) ∧
    (.and ∈ rest.map Prod.fst → .or ∈ rest.map Prod.fst →
      some (combine join first rest) =
          joinedLeft? join .or (levelOperands join (rest.map Prod.fst) (termAt first rest)) ∧
        (levelTree (rest.map Prod.fst)).AndsJoinTerms) ∧
    ∀ op, (∀ term ∈ rest, term.1 = op) →
      combine join first rest = foldRight join op first (rest.map Prod.snd) := by
  refine ⟨combine_eq_value join first rest, ?_, fun hand hor => ⟨?_, ?_⟩, fun op hop => ?_⟩
  · rw [terms_levelTree, List.length_map]
  · obtain ⟨operand, operands, hoperands, hcombine⟩ := exists_operands_of_mixed join first hor hand
    rw [← map_termAt, orOperands_joinAnds] at hoperands
    rw [hoperands, joinedLeft?, hcombine]
  · exact andsJoinTerms_levelTree hand hor
  · exact combine_of_all hop

/-- The second `and` stands between the last two terms. Only the second one of them is left at its
place when its turn comes, so it is dropped, and the two terms become an `or`. -/
theorem combine_closed_dropped :
    ∃ rest : List (LogicalOp × Joined String),
      rest = [(.or, .term "b"), (.and, .term "c"), (.or, .term "d"), (.and, .term "e")] ∧
      .and ∈ rest.map Prod.fst ∧ .or ∈ rest.map Prod.fst ∧ pairStarts (rest.map Prod.fst) = [1] ∧
      combine Joined.join (.term "a") rest =
        .join .or (.join .or (.term "a") (.join .and (.term "b") (.term "c")))
          (.join .or (.term "d") (.term "e")) ∧
      (levelTree (rest.map Prod.fst)).AndsJoinTerms ∧
      (levelTree (rest.map Prod.fst)).terms = [0, 1, 2, 3, 4] ∧
      (∀ term ∈ rest.drop 3, term.1 = .and) ∧
      combine Joined.join (.term "d") (rest.drop 3) = .join .and (.term "d") (.term "e") := by
  have hand : LogicalOp.and ∈ [LogicalOp.or, .and, .or, .and] := by decide
  have hor : LogicalOp.or ∈ [LogicalOp.or, .and, .or, .and] := by decide
  obtain ⟨-, hterms, hmixed, -⟩ := combine_closed Joined.join (.term "a")
    [(.or, .term "b"), (.and, .term "c"), (.or, .term "d"), (.and, .term "e")]
  obtain ⟨hclosed, hands⟩ := hmixed hand hor
  have hsame : ∀ term ∈ [((.and, .term "e") : LogicalOp × Joined String)], term.1 = .and := by simp
  obtain ⟨-, -, -, hfold⟩ := combine_closed Joined.join (.term "d") [(.and, .term "e")]
  exact ⟨_, rfl, hand, hor, rfl, Option.some.inj hclosed, hands, hterms, hsame, hfold .and hsame⟩

end Scim.Filter
