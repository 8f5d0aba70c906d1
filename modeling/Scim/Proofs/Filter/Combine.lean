import Mathlib.Data.List.Forall2
import Scim.Filter.Combine

/-!
What the terms of a level have in common, and joining keeps, the expression of the level has too. A
level with one keyword is folded from the right and one with both is an `or`. No term is lost or
moved. And the terms can be read as something else before or after they are joined.
-/
namespace Scim.Filter

section Induction

variable {α : Type} {join : LogicalOp → α → α → α} {P : α → Prop}

theorem foldRight_induction {op : LogicalOp}
    (hjoin : ∀ left right, P left → P right → P (join op left right)) {first : α} {rest : List α}
    (hfirst : P first) (hrest : ∀ term ∈ rest, P term) : P (foldRight join op first rest) := by
  induction rest generalizing first with
  | nil => exact hfirst
  | cons next rest ih =>
    have hnext := ih (hrest next List.mem_cons_self)
      (fun term hterm => hrest term (List.mem_cons_of_mem next hterm))
    exact hjoin first _ hfirst hnext

theorem foldLeft_induction {op : LogicalOp}
    (hjoin : ∀ left right, P left → P right → P (join op left right)) {first : α} {rest : List α}
    (hfirst : P first) (hrest : ∀ term ∈ rest, P term) : P (foldLeft join op first rest) := by
  induction rest generalizing first with
  | nil => exact hfirst
  | cons next rest ih =>
    have hnext := hjoin first next hfirst (hrest next List.mem_cons_self)
    exact ih hnext (fun term hterm => hrest term (List.mem_cons_of_mem next hterm))

theorem joinAt_induction (hjoin : ∀ op left right, P left → P right → P (join op left right))
    (position : Nat) {atoms : List (Atom α)} (hatoms : ∀ atom ∈ atoms, P atom.value) :
    ∀ atom ∈ joinAt join position atoms, P atom.value := by
  fun_induction joinAt join position atoms with
  | case1 left right rest =>
    intro atom hatom
    rcases List.mem_cons.1 hatom with rfl | hatom
    · exact hjoin .and _ _ (hatoms left List.mem_cons_self)
        (hatoms right (List.mem_cons_of_mem _ List.mem_cons_self))
    · exact hatoms atom (List.mem_cons_of_mem _ (List.mem_cons_of_mem _ hatom))
  | case2 position first rest ih =>
    intro atom hatom
    rcases List.mem_cons.1 hatom with rfl | hatom
    · exact hatoms atom List.mem_cons_self
    · exact ih (fun other hother => hatoms other (List.mem_cons_of_mem _ hother)) atom hatom
  | case3 => exact hatoms

theorem joinAnds_induction (hjoin : ∀ op left right, P left → P right → P (join op left right))
    (position : Nat) (ops : List LogicalOp) {atoms : List (Atom α)}
    (hatoms : ∀ atom ∈ atoms, P atom.value) :
    ∀ atom ∈ joinAnds join position ops atoms, P atom.value := by
  induction ops generalizing position atoms with
  | nil => exact hatoms
  | cons op ops ih =>
    cases op with
    | and => exact ih (position + 1) (joinAt_induction hjoin position hatoms)
    | or => exact ih (position + 1) hatoms

theorem orOperands_induction (hjoin : ∀ op left right, P left → P right → P (join op left right))
    {atoms : List (Atom α)} (hatoms : ∀ atom ∈ atoms, P atom.value) :
    ∀ operand ∈ orOperands join atoms, P operand := by
  have hvalues : ∀ value ∈ atoms.map Atom.value, P value := by
    intro value hvalue
    obtain ⟨atom, hatom, rfl⟩ := List.mem_map.1 hvalue
    exact hatoms atom hatom
  intro operand hoperand
  simp only [orOperands] at hoperand
  split at hoperand
  · rename_i first next rest htrailing
    have htrail : ∀ value ∈ first :: next :: rest, P value := by
      rw [← htrailing, List.map_drop]
      exact fun value hvalue => hvalues value (List.mem_of_mem_drop hvalue)
    rcases List.mem_append.1 hoperand with hoperand | hoperand
    · rw [List.map_take] at hoperand
      exact hvalues operand (List.mem_of_mem_take hoperand)
    · obtain rfl := List.mem_singleton.1 hoperand
      exact foldRight_induction (hjoin .or) (htrail first List.mem_cons_self)
        (fun value hvalue => htrail value (List.mem_cons_of_mem first hvalue))
  · exact hvalues operand hoperand

/-- What joining keeps holds of a level if it holds of its terms. -/
theorem combine_induction (hjoin : ∀ op left right, P left → P right → P (join op left right))
    {first : α} {rest : List (LogicalOp × α)} (hfirst : P first)
    (hrest : ∀ term ∈ rest, P term.2) : P (combine join first rest) := by
  have hterms : ∀ term ∈ rest.map Prod.snd, P term := by
    intro term hterm
    obtain ⟨pair, hpair, rfl⟩ := List.mem_map.1 hterm
    exact hrest pair hpair
  simp only [combine]
  split
  · exact hfirst
  split
  · exact foldRight_induction (hjoin _) hfirst hterms
  · have hatoms : ∀ atom ∈ (first :: rest.map Prod.snd).map fun term => (⟨term, true⟩ : Atom α),
        P atom.value := by
      intro atom hatom
      obtain ⟨term, hterm, rfl⟩ := List.mem_map.1 hatom
      rcases List.mem_cons.1 hterm with rfl | hterm
      · exact hfirst
      · exact hterms term hterm
    have hoperands := orOperands_induction hjoin (joinAnds_induction hjoin 0 (rest.map Prod.fst)
      hatoms)
    split
    · exact hfirst
    · rename_i operand operands heq
      rw [heq] at hoperands
      exact foldLeft_induction (hjoin .or) (hoperands operand List.mem_cons_self)
        (fun other hother => hoperands other (List.mem_cons_of_mem operand hother))

end Induction

section Shape

variable {α : Type} {join : LogicalOp → α → α → α} {ops : List LogicalOp}
  {first : α} {rest : List (LogicalOp × α)}

theorem joinAnds_succ (position : Nat) (ops : List LogicalOp) (atom : Atom α)
    (atoms : List (Atom α)) :
    joinAnds join (position + 1) ops (atom :: atoms) = atom :: joinAnds join position ops atoms := by
  induction ops generalizing position atoms with
  | nil => rfl
  | cons op ops ih =>
    cases op with
    | and => exact ih (position + 1) (joinAt join position atoms)
    | or => exact ih (position + 1) atoms

theorem joinAnds_ne_nil (position : Nat) (ops : List LogicalOp) {atoms : List (Atom α)}
    (h : atoms ≠ []) : joinAnds join position ops atoms ≠ [] := by
  induction ops generalizing position atoms with
  | nil => exact h
  | cons op ops ih =>
    cases op with
    | and =>
      refine ih (position + 1) ?_
      fun_cases joinAt join position atoms with
      | case1 => simp
      | case2 => simp
      | case3 => exact h
    | or => exact ih (position + 1) h

/-- Without an `and` no atoms are joined. -/
theorem joinAnds_of_all_or (h : ∀ op ∈ ops, op = .or) (position : Nat) (atoms : List (Atom α)) :
    joinAnds join position ops atoms = atoms := by
  induction ops generalizing position with
  | nil => rfl
  | cons op ops ih =>
    obtain rfl : op = .or := h op List.mem_cons_self
    exact ih (fun other hother => h other (List.mem_cons_of_mem _ hother)) (position + 1)

theorem orOperands_ne_nil {atoms : List (Atom α)} (h : atoms ≠ []) : orOperands join atoms ≠ [] := by
  simp only [orOperands]
  split
  · simp
  · simpa using h

def singles (terms : List α) : List (Atom α) := terms.map fun term => ⟨term, true⟩

/-- A level with both keywords is the `or` of its operands. -/
theorem exists_operands_of_mixed (join : LogicalOp → α → α → α) (first : α)
    (hor : .or ∈ rest.map Prod.fst) (hand : .and ∈ rest.map Prod.fst) :
    ∃ operand operands, orOperands join (joinAnds join 0 (rest.map Prod.fst)
        (singles (first :: rest.map Prod.snd))) = operand :: operands ∧
      combine join first rest = foldLeft join .or operand operands := by
  have hne : joinAnds join 0 (rest.map Prod.fst) (singles (first :: rest.map Prod.snd)) ≠ [] :=
    joinAnds_ne_nil 0 _ (by simp [singles])
  simp only [combine]
  split
  · rename_i hops
    simp [hops] at hor
  rename_i op others hops
  have hmixed : ¬others.all (· == op) = true := by
    rw [hops] at hor hand
    intro hall
    have hothers : ∀ other ∈ others, other = op := by simpa using hall
    cases op with
    | and => simpa using hothers .or (by simpa using hor)
    | or => simpa using hothers .and (by simpa using hand)
  rw [if_neg hmixed, ← singles]
  split
  · rename_i hnil
    exact absurd hnil (orOperands_ne_nil hne)
  · rename_i operand operands heq
    exact ⟨operand, operands, heq, rfl⟩

theorem all_or_of_notMem (h : .and ∉ rest.map Prod.fst) : ∀ term ∈ rest, term.1 = .or := by
  intro term hterm
  cases hop : term.1 with
  | and => exact absurd (hop ▸ List.mem_map_of_mem hterm) h
  | or => rfl

theorem all_and_of_notMem (h : .or ∉ rest.map Prod.fst) : ∀ term ∈ rest, term.1 = .and := by
  intro term hterm
  cases hop : term.1 with
  | and => rfl
  | or => exact absurd (hop ▸ List.mem_map_of_mem hterm) h

/-- A level with one keyword is folded from the right. -/
theorem combine_of_all {op : LogicalOp} (h : ∀ term ∈ rest, term.1 = op) :
    combine join first rest = foldRight join op first (rest.map Prod.snd) := by
  cases rest with
  | nil => rfl
  | cons term rest =>
    obtain ⟨first, next⟩ := term
    obtain rfl : first = op := h _ List.mem_cons_self
    have hothers : (rest.map Prod.fst).all (· == first) = true := by
      rw [List.all_map, List.all_eq_true]
      exact fun term hterm => beq_iff_eq.2 (h term (List.mem_cons_of_mem _ hterm))
    simp only [combine, List.map_cons, hothers, if_true]

end Shape

section Order

variable {α : Type}

/-- Joining lists of terms puts them behind each other, whatever the keyword. -/
def appended (_ : LogicalOp) (left right : List α) : List α := left ++ right

theorem foldRight_appended (op : LogicalOp) (first : List α) (rest : List (List α)) :
    foldRight appended op first rest = (first :: rest).flatten := by
  induction rest generalizing first with
  | nil => simp [foldRight]
  | cons next rest ih =>
    rw [foldRight, ih]
    rfl

theorem foldLeft_appended (op : LogicalOp) (first : List α) (rest : List (List α)) :
    foldLeft appended op first rest = (first :: rest).flatten := by
  induction rest generalizing first with
  | nil => simp [foldLeft]
  | cons next rest ih =>
    have hnext := ih (appended op first next)
    rw [List.flatten_cons, appended, List.append_assoc] at hnext
    exact hnext

theorem flatten_joinAt (position : Nat) (atoms : List (Atom (List α))) :
    ((joinAt appended position atoms).map Atom.value).flatten = (atoms.map Atom.value).flatten := by
  fun_induction joinAt appended position atoms with
  | case1 left right rest => simp [appended]
  | case2 position first rest ih =>
    rw [List.map_cons, List.flatten_cons, ih, List.map_cons, List.flatten_cons]
  | case3 => rfl

theorem flatten_joinAnds (position : Nat) (ops : List LogicalOp) (atoms : List (Atom (List α))) :
    ((joinAnds appended position ops atoms).map Atom.value).flatten =
      (atoms.map Atom.value).flatten := by
  induction ops generalizing position atoms with
  | nil => rfl
  | cons op ops ih =>
    cases op with
    | and => rw [joinAnds, ih, flatten_joinAt]
    | or => exact ih (position + 1) atoms

theorem flatten_orOperands (atoms : List (Atom (List α))) :
    (orOperands appended atoms).flatten = (atoms.map Atom.value).flatten := by
  simp only [orOperands]
  split
  · rename_i first next rest htrailing
    have hatoms : atoms.map Atom.value =
        (atoms.take (atoms.length - trailingTerms atoms)).map Atom.value ++ first :: next :: rest := by
      rw [← htrailing, ← List.map_append, List.take_append_drop]
    rw [hatoms, List.flatten_append, List.flatten_append, foldRight_appended]
    simp
  · rfl

/-- A level joins each of its terms once and in order. -/
theorem combine_appended (first : List α) (rest : List (LogicalOp × List α)) :
    combine appended first rest = (first :: rest.map Prod.snd).flatten := by
  by_cases hor : .or ∈ rest.map Prod.fst
  · by_cases hand : .and ∈ rest.map Prod.fst
    · obtain ⟨operand, operands, hoperands, hcombine⟩ :=
        exists_operands_of_mixed appended first hor hand
      have hvalues : (singles (first :: rest.map Prod.snd)).map Atom.value =
          first :: rest.map Prod.snd := by
        simp [singles, Function.comp_def]
      rw [hcombine, foldLeft_appended, ← hoperands, flatten_orOperands, flatten_joinAnds, hvalues]
    · rw [combine_of_all (all_or_of_notMem hand), foldRight_appended]
  · rw [combine_of_all (all_and_of_notMem hor), foldRight_appended]

end Order

section Reading

variable {α β : Type} {join : LogicalOp → α → α → α} {join' : LogicalOp → β → β → β} {f : α → β}

def Atom.map (f : α → β) (atom : Atom α) : Atom β := ⟨f atom.value, atom.isTerm⟩

theorem map_foldRight (hjoin : ∀ op left right, f (join op left right) = join' op (f left) (f right))
    (op : LogicalOp) (first : α) (rest : List α) :
    f (foldRight join op first rest) = foldRight join' op (f first) (rest.map f) := by
  induction rest generalizing first with
  | nil => rfl
  | cons next rest ih => rw [foldRight, hjoin, ih, List.map_cons, foldRight]

theorem map_foldLeft (hjoin : ∀ op left right, f (join op left right) = join' op (f left) (f right))
    (op : LogicalOp) (first : α) (rest : List α) :
    f (foldLeft join op first rest) = foldLeft join' op (f first) (rest.map f) := by
  induction rest generalizing first with
  | nil => rfl
  | cons next rest ih =>
    have hnext := ih (join op first next)
    rw [hjoin] at hnext
    exact hnext

theorem map_joinAt (hjoin : ∀ op left right, f (join op left right) = join' op (f left) (f right))
    (position : Nat) (atoms : List (Atom α)) :
    (joinAt join position atoms).map (Atom.map f) = joinAt join' position (atoms.map (Atom.map f)) := by
  fun_induction joinAt join position atoms with
  | case1 left right rest => simp only [List.map_cons, joinAt, Atom.map, hjoin]
  | case2 position first rest ih => simp only [List.map_cons, joinAt, ih]
  | case3 position atoms hpair hcons =>
    cases position with
    | zero =>
      cases atoms with
      | nil => rfl
      | cons left rest =>
        cases rest with
        | nil => rfl
        | cons right rest => exact absurd rfl (hpair left right rest rfl)
    | succ position =>
      cases atoms with
      | nil => rfl
      | cons first rest => exact absurd rfl (hcons position first rest rfl)

theorem map_joinAnds (hjoin : ∀ op left right, f (join op left right) = join' op (f left) (f right))
    (position : Nat) (ops : List LogicalOp) (atoms : List (Atom α)) :
    (joinAnds join position ops atoms).map (Atom.map f) =
      joinAnds join' position ops (atoms.map (Atom.map f)) := by
  induction ops generalizing position atoms with
  | nil => rfl
  | cons op ops ih =>
    cases op with
    | and => rw [joinAnds, joinAnds, ih, map_joinAt hjoin]
    | or => exact ih (position + 1) atoms

theorem trailingTerms_map (f : α → β) (atoms : List (Atom α)) :
    trailingTerms (atoms.map (Atom.map f)) = trailingTerms atoms := by
  have htest : Atom.isTerm ∘ Atom.map f = Atom.isTerm := rfl
  rw [trailingTerms, trailingTerms, ← List.map_reverse, List.takeWhile_map, htest, List.length_map]

theorem map_value_map (f : α → β) (atoms : List (Atom α)) :
    (atoms.map (Atom.map f)).map Atom.value = (atoms.map Atom.value).map f := by
  rw [List.map_map, List.map_map]
  rfl

theorem map_orOperands (hjoin : ∀ op left right, f (join op left right) = join' op (f left) (f right))
    (atoms : List (Atom α)) :
    (orOperands join atoms).map f = orOperands join' (atoms.map (Atom.map f)) := by
  simp only [orOperands, trailingTerms_map, List.length_map, ← List.map_drop, ← List.map_take,
    map_value_map]
  generalize (atoms.drop (atoms.length - trailingTerms atoms)).map Atom.value = trailing
  cases trailing with
  | nil => rfl
  | cons first rest =>
    cases rest with
    | nil => rfl
    | cons next rest =>
      simp only [List.map_append, List.map_cons, List.map_nil, map_foldRight hjoin]

/-- Joining terms and reading the result is reading the terms and joining what they are read as. -/
theorem map_combine (hjoin : ∀ op left right, f (join op left right) = join' op (f left) (f right))
    (first : α) (rest : List (LogicalOp × α)) :
    f (combine join first rest) =
      combine join' (f first) (rest.map fun term => (term.1, f term.2)) := by
  have hops : (rest.map fun term => (term.1, f term.2)).map Prod.fst = rest.map Prod.fst := by
    rw [List.map_map]
    rfl
  have hterms : (rest.map fun term => (term.1, f term.2)).map Prod.snd =
      (rest.map Prod.snd).map f := by
    rw [List.map_map, List.map_map]
    rfl
  have hatoms : (f first :: (rest.map Prod.snd).map f).map (fun term => (⟨term, true⟩ : Atom β)) =
      ((first :: rest.map Prod.snd).map fun term => (⟨term, true⟩ : Atom α)).map (Atom.map f) := by
    rw [← List.map_cons, List.map_map, List.map_map]
    rfl
  simp only [combine, hops, hterms, hatoms, ← map_joinAnds hjoin, ← map_orOperands hjoin]
  split
  · rfl
  split
  · exact map_foldRight hjoin _ first _
  · generalize orOperands join (joinAnds join 0 _ _) = operands
    cases operands with
    | nil => rfl
    | cons operand operands => exact map_foldLeft hjoin .or operand operands

/-- What relates the terms of two levels with the same keywords, and joining keeps, relates what they
are joined to. -/
theorem rel_combine {R : α → β → Prop}
    (hjoin : ∀ op left right left' right', R left left' → R right right' →
      R (join op left right) (join' op left' right')) {first : α} {first' : β}
    {rest : List (LogicalOp × α)} {rest' : List (LogicalOp × β)} (hfirst : R first first')
    (hrest : List.Forall₂ (fun term other => term.1 = other.1 ∧ R term.2 other.2) rest rest') :
    R (combine join first rest) (combine join' first' rest') := by
  -- Both levels are the halves of one level of pairs.
  obtain ⟨pairs, hpairs, rfl, rfl⟩ : ∃ pairs : List (LogicalOp × α × β),
      (∀ pair ∈ pairs, R pair.2.1 pair.2.2) ∧ pairs.map (fun pair => (pair.1, pair.2.1)) = rest ∧
        pairs.map (fun pair => (pair.1, pair.2.2)) = rest' := by
    induction hrest with
    | nil => exact ⟨[], by simp, rfl, rfl⟩
    | @cons term other _ _ hterm _ ih =>
      obtain ⟨pairs, hpairs, rfl, rfl⟩ := ih
      obtain ⟨op, value⟩ := term
      obtain ⟨op', value'⟩ := other
      obtain ⟨rfl, hvalue⟩ := hterm
      exact ⟨(op, value, value') :: pairs, List.forall_mem_cons.2 ⟨hvalue, hpairs⟩, rfl, rfl⟩
  let joinPair : LogicalOp → α × β → α × β → α × β :=
    fun op left right => (join op left.1 right.1, join' op left.2 right.2)
  have hboth : R (combine joinPair (first, first') pairs).1
      (combine joinPair (first, first') pairs).2 :=
    combine_induction (P := fun pair : α × β => R pair.1 pair.2)
      (fun op _ _ hleft hright => hjoin op _ _ _ _ hleft hright) hfirst hpairs
  have hleft : (combine joinPair (first, first') pairs).1 =
      combine join first (pairs.map fun pair => (pair.1, pair.2.1)) :=
    map_combine (f := Prod.fst) (fun _ _ _ => rfl) (first, first') pairs
  have hright : (combine joinPair (first, first') pairs).2 =
      combine join' first' (pairs.map fun pair => (pair.1, pair.2.2)) :=
    map_combine (f := Prod.snd) (fun _ _ _ => rfl) (first, first') pairs
  rwa [hleft, hright] at hboth

end Reading

end Scim.Filter
