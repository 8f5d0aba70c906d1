import Mathlib.Data.List.Basic
import Mathlib.Data.List.TakeWhile
import Scim.Proofs.Filter.Combine

/-!
Which terms of a mixed level the `and`s join. The `and` number `j` at position `p` among the keywords
joins the terms number `p + j` and `p + j + 1`, because every `and` before it has made one atom of two
terms. The first `and` without two terms there is dropped with all later ones. The operands of the
final `or` are the pairs and the single terms, those behind the last pair folded from the right if
they are two or more.
-/
namespace Scim.Filter

def andPositions (ops : List LogicalOp) : List Nat :=
  (ops.zipIdx.filter fun op => op.1 == .and).map Prod.snd

/-- The numbers of the terms that a mixed level joins with the term behind them. A level has one
term more than keywords. -/
def pairStarts (ops : List LogicalOp) : List Nat :=
  ((andPositions ops).zipIdx.map fun op => op.1 + op.2).takeWhile (· + 1 < ops.length + 1)

/-- The number of the first term behind the last pair. From there on all terms are single. -/
def tailStart (ops : List LogicalOp) : Nat := ((pairStarts ops).getLast?.map (· + 2)).getD 0

section Closed

variable {α : Type} (join : LogicalOp → α → α → α)

def operandAt (starts : List Nat) (terms : Nat → α) (number : Nat) : Option α :=
  if number ∈ starts then some (join .and (terms number) (terms (number + 1)))
  else if number ∈ starts.map (· + 1) then none
  else some (terms number)

def tailOperands : List α → List α
  | first :: next :: rest => [foldRight join .or first (next :: rest)]
  | few => few

def levelOperands (ops : List LogicalOp) (terms : Nat → α) : List α :=
  (List.range (tailStart ops)).filterMap (operandAt join (pairStarts ops) terms) ++
    tailOperands join ((List.range' (tailStart ops) (ops.length + 1 - tailStart ops)).map terms)

def joinedLeft? (op : LogicalOp) : List α → Option α
  | [] => none
  | first :: rest => some (foldLeft join op first rest)

end Closed

/-- The starts of the pairs as if the terms had no end, from some number on: every keyword belongs
to the next atom, and that of an `and` uses up two terms. -/
def startsFrom : Nat → List LogicalOp → List Nat
  | _, [] => []
  | number, .and :: ops => number :: startsFrom (number + 2) ops
  | number, .or :: ops => startsFrom (number + 1) ops

theorem startsFrom_eq (position joined : Nat) (ops : List LogicalOp) :
    ((((ops.zipIdx position).filter fun op => op.1 == .and).map Prod.snd).zipIdx joined).map
      (fun op => op.1 + op.2) = startsFrom (position + joined) ops := by
  induction ops generalizing position joined with
  | nil => rfl
  | cons op ops ih =>
    rw [List.zipIdx_cons]
    cases op with
    | and =>
      have hnext := ih (position + 1) (joined + 1)
      rw [show position + 1 + (joined + 1) = position + joined + 2 by omega] at hnext
      rw [List.filter_cons_of_pos (by rfl), List.map_cons, List.zipIdx_cons, List.map_cons, hnext,
        startsFrom]
    | or =>
      have hnext := ih (position + 1) joined
      rw [show position + 1 + joined = position + joined + 1 by omega] at hnext
      rw [List.filter_cons_of_neg (by simp), hnext, startsFrom]

/-- The pairs start where counting along the keywords says, as long as there is a second term. -/
theorem pairStarts_eq (ops : List LogicalOp) :
    pairStarts ops = (startsFrom 0 ops).takeWhile (· + 1 < ops.length + 1) := by
  rw [pairStarts, andPositions, startsFrom_eq]

theorem le_of_mem_startsFrom {start number : Nat} {ops : List LogicalOp}
    (h : start ∈ startsFrom number ops) : number ≤ start := by
  induction ops generalizing number with
  | nil => simp [startsFrom] at h
  | cons op ops ih =>
    cases op with
    | and =>
      rcases List.mem_cons.1 h with rfl | h
      · exact Nat.le_refl start
      · have := ih h
        omega
    | or =>
      have := ih h
      omega

/-- Pairs do not overlap. -/
theorem pairwise_startsFrom (number : Nat) (ops : List LogicalOp) :
    (startsFrom number ops).Pairwise (· + 1 < ·) := by
  induction ops generalizing number with
  | nil => exact List.Pairwise.nil
  | cons op ops ih =>
    cases op with
    | and =>
      refine List.pairwise_cons.2 ⟨fun start hstart => ?_, ih (number + 2)⟩
      have := le_of_mem_startsFrom hstart
      omega
    | or => exact ih (number + 1)

section Atoms

variable {α : Type} {join : LogicalOp → α → α → α} {starts : List Nat} {terms : Nat → α}

def atomAt (join : LogicalOp → α → α → α) (starts : List Nat) (terms : Nat → α) (number : Nat) :
    Option (Atom α) :=
  (operandAt join starts terms number).map fun value => ⟨value, number ∉ starts⟩

theorem atomAt_of_apart {number : Nat}
    (h : ∀ start ∈ starts, start ≠ number ∧ start + 1 ≠ number) :
    atomAt join starts terms number = some ⟨terms number, true⟩ := by
  have hstart : number ∉ starts := fun hmem => (h number hmem).1 rfl
  have hsecond : number ∉ starts.map (· + 1) := by
    intro hmem
    obtain ⟨start, hmem, heq⟩ := List.mem_map.1 hmem
    exact (h start hmem).2 heq
  simp [atomAt, operandAt, hstart, hsecond]

theorem atomAt_start (number : Nat) :
    atomAt join (number :: starts) terms number =
      some ⟨join .and (terms number) (terms (number + 1)), false⟩ := by
  simp [atomAt, operandAt]

theorem atomAt_second {number : Nat} (h : ∀ start ∈ starts, number + 1 < start) :
    atomAt join (number :: starts) terms (number + 1) = none := by
  have hstart : number + 1 ∉ starts := by
    intro hmem
    exact Nat.lt_irrefl _ (h _ hmem)
  simp [atomAt, operandAt, hstart]

theorem atomAt_behind {first number : Nat} (h : first + 1 < number) :
    atomAt join (first :: starts) terms number = atomAt join starts terms number := by
  have hfirst : number ≠ first := by omega
  have hsecond : number ≠ first + 1 := by omega
  simp [atomAt, operandAt, hfirst, hsecond]

theorem joinAt_of_length_le {position : Nat} {atoms : List (Atom α)}
    (h : atoms.length ≤ position + 1) : joinAt join position atoms = atoms := by
  fun_induction joinAt join position atoms with
  | case1 left right rest => simp at h
  | case2 position atom rest ih =>
    rw [ih (by simpa using h)]
  | case3 => rfl

/-- Where the atoms have come to an end no keyword does anything. -/
theorem joinAnds_of_length_le {position : Nat} {atoms : List (Atom α)}
    (h : atoms.length ≤ position + 1) (ops : List LogicalOp) :
    joinAnds join position ops atoms = atoms := by
  induction ops generalizing position with
  | nil => rfl
  | cons op ops ih =>
    have hnext : atoms.length ≤ position + 1 + 1 := by omega
    cases op with
    | and => rw [joinAnds, joinAt_of_length_le h, ih hnext]
    | or => exact ih hnext

theorem singles_map_range' (number count : Nat) :
    singles ((List.range' number (count + 1)).map terms) =
      ⟨terms number, true⟩ :: singles ((List.range' (number + 1) count).map terms) := by
  rw [List.range'_succ]
  rfl

/-- Terms that are in no pair stay single. -/
theorem filterMap_atomAt_of_apart {numbers : List Nat}
    (h : ∀ number ∈ numbers, ∀ start ∈ starts, start ≠ number ∧ start + 1 ≠ number) :
    numbers.filterMap (atomAt join starts terms) = singles (numbers.map terms) := by
  have hsingle : ∀ number ∈ numbers,
      atomAt join starts terms number = some ⟨terms number, true⟩ :=
    fun number hnumber => atomAt_of_apart (h number hnumber)
  rw [List.filterMap_congr hsingle, List.filterMap_eq_map', singles, List.map_map]
  rfl

/-- The atoms that are left of the terms from some number on, in their order. -/
theorem joinAnds_eq_filterMap (ops : List LogicalOp) (number count : Nat) :
    joinAnds join 0 ops (singles ((List.range' number count).map terms)) =
      (List.range' number count).filterMap
        (atomAt join ((startsFrom number ops).takeWhile (· + 1 < number + count)) terms) := by
  induction ops generalizing number count with
  | nil =>
    symm
    apply filterMap_atomAt_of_apart
    simp [startsFrom]
  | cons op ops ih =>
    cases count with
    | zero => exact joinAnds_of_length_le (Nat.zero_le 1) (op :: ops)
    | succ count =>
    have hlater : ∀ behind, ∀ start ∈ (startsFrom behind ops).takeWhile
        (· + 1 < number + (count + 1)), behind ≤ start :=
      fun behind start hstart => le_of_mem_startsFrom (List.takeWhile_subset _ hstart)
    cases op with
    | or =>
      have hstop : number + 1 + count = number + (count + 1) := by omega
      have hfirst : atomAt join ((startsFrom (number + 1) ops).takeWhile
          (· + 1 < number + (count + 1))) terms number = some ⟨terms number, true⟩ := by
        apply atomAt_of_apart
        intro start hstart
        have := hlater (number + 1) start hstart
        omega
      rw [singles_map_range', joinAnds, joinAnds_succ, ih, hstop, startsFrom, List.range'_succ,
        List.filterMap_cons_some hfirst]
    | and =>
      cases count with
      | zero =>
        rw [joinAnds_of_length_le (by simp [singles]), startsFrom,
          List.takeWhile_cons_of_neg (by simp), filterMap_atomAt_of_apart (by simp)]
      | succ count =>
        have hstop : number + 1 + 1 + count = number + (count + 1 + 1) := by omega
        have hbehind : ∀ later ∈ List.range' (number + 1 + 1) count,
            atomAt join (number :: (startsFrom (number + 2) ops).takeWhile
              (· + 1 < number + (count + 1 + 1))) terms later =
            atomAt join ((startsFrom (number + 2) ops).takeWhile
              (· + 1 < number + (count + 1 + 1))) terms later := by
          intro later hlater
          exact atomAt_behind (List.mem_range'_1.1 hlater).1
        have hsecond : atomAt join (number :: (startsFrom (number + 2) ops).takeWhile
            (· + 1 < number + (count + 1 + 1))) terms (number + 1) = none := by
          apply atomAt_second
          intro start hstart
          have := hlater (number + 2) start hstart
          omega
        rw [singles_map_range', singles_map_range', joinAnds, joinAt, joinAnds_succ, ih, hstop,
          startsFrom, List.takeWhile_cons_of_pos (by simp), List.range'_succ,
          List.filterMap_cons_some (atomAt_start number), List.range'_succ,
          List.filterMap_cons_none hsecond, List.filterMap_congr hbehind]

/-- Single terms behind an atom that is none are the trailing ones. -/
theorem trailingTerms_append_singles {front : List (Atom α)} {tail : List α}
    (hfront : ∀ atom ∈ front.getLast?, atom.isTerm = false) :
    trailingTerms (front ++ singles tail) = tail.length := by
  have htail : ∀ atom ∈ (singles tail).reverse, atom.isTerm = true := by
    intro atom hatom
    obtain ⟨term, -, rfl⟩ := List.mem_map.1 (List.mem_reverse.1 hatom)
    rfl
  have hstop : front.reverse.takeWhile Atom.isTerm = [] := by
    cases hlast : front.reverse with
    | nil => rfl
    | cons atom atoms =>
      have hatom : front.getLast? = some atom := by
        rw [← List.head?_reverse, hlast, List.head?_cons]
      exact List.takeWhile_cons_of_neg (by simp [hfront atom hatom])
  rw [trailingTerms, List.reverse_append, List.takeWhile_append_of_pos htail, hstop, List.append_nil,
    List.length_reverse, singles, List.length_map]

/-- Only the terms behind the last pair are folded from the right. -/
theorem orOperands_append_singles {front : List (Atom α)} {tail : List α}
    (hfront : ∀ atom ∈ front.getLast?, atom.isTerm = false) :
    orOperands join (front ++ singles tail) =
      front.map Atom.value ++ tailOperands join tail := by
  have hvalues : (singles tail).map Atom.value = tail := by
    simp [singles, Function.comp_def]
  have hhead : (front ++ singles tail).length - trailingTerms (front ++ singles tail) =
      front.length := by
    rw [trailingTerms_append_singles hfront]
    simp [singles]
  simp only [orOperands, hhead, List.drop_left, List.take_left, hvalues, List.map_append]
  cases tail with
  | nil => rfl
  | cons first rest =>
    cases rest with
    | nil => rfl
    | cons second rest => rfl

end Atoms

variable {ops : List LogicalOp}

theorem add_two_le_tailStart {start : Nat} (h : start ∈ pairStarts ops) :
    start + 2 ≤ tailStart ops := by
  have hpairwise : (pairStarts ops).Pairwise (· + 1 < ·) := by
    rw [pairStarts_eq]
    exact (pairwise_startsFrom 0 ops).sublist (List.takeWhile_sublist _)
  rcases List.eq_nil_or_concat (pairStarts ops) with hnil | ⟨init, last, hconcat⟩
  · simp [hnil] at h
  · rw [List.concat_eq_append] at hconcat
    have hstop : tailStart ops = last + 2 := by simp [tailStart, hconcat]
    rw [hconcat] at h hpairwise
    rcases List.mem_append.1 h with h | h
    · have := (List.pairwise_append.1 hpairwise).2.2 start h last List.mem_cons_self
      omega
    · obtain rfl := List.mem_singleton.1 h
      exact Nat.le_of_eq hstop.symm

theorem tailStart_le (ops : List LogicalOp) : tailStart ops ≤ ops.length + 1 := by
  rcases List.eq_nil_or_concat (pairStarts ops) with hnil | ⟨init, last, hconcat⟩
  · simp [tailStart, hnil]
  · rw [List.concat_eq_append] at hconcat
    have hlast : last ∈ (startsFrom 0 ops).takeWhile (· + 1 < ops.length + 1) := by
      rw [← pairStarts_eq, hconcat]
      exact List.mem_append_right _ List.mem_cons_self
    have hfits := List.mem_takeWhile_imp hlast
    simp only [tailStart, hconcat, List.getLast?_concat, Option.map_some, Option.getD_some]
    simp only [decide_eq_true_eq] at hfits
    omega

section Operands

variable {α : Type} {join : LogicalOp → α → α → α} {terms : Nat → α}

/-- The last atom in front of the trailing terms is a pair. -/
theorem isTerm_of_mem_getLast? {atom : Atom α}
    (h : atom ∈ ((List.range (tailStart ops)).filterMap
      (atomAt join (pairStarts ops) terms)).getLast?) : atom.isTerm = false := by
  rcases List.eq_nil_or_concat (pairStarts ops) with hnil | ⟨init, last, hconcat⟩
  · simp [tailStart, hnil] at h
  · rw [List.concat_eq_append] at hconcat
    have hstop : tailStart ops = last + 1 + 1 := by simp [tailStart, hconcat]
    have hlast : last ∈ pairStarts ops := by simp [hconcat]
    have hbehind : last + 1 ∉ pairStarts ops := by
      intro hmem
      have := add_two_le_tailStart hmem
      omega
    have hpair : atomAt join (pairStarts ops) terms last =
        some ⟨join .and (terms last) (terms (last + 1)), false⟩ := by
      simp [atomAt, operandAt, hlast]
    have hsecond : atomAt join (pairStarts ops) terms (last + 1) = none := by
      simp [atomAt, operandAt, hbehind, hlast]
    rw [hstop, List.range_succ, List.range_succ, List.append_assoc, List.filterMap_append,
      List.singleton_append, List.filterMap_cons_some hpair, List.filterMap_cons_none hsecond,
      List.filterMap_nil, List.getLast?_concat] at h
    rw [← Option.some.inj h]

/-- The operands of a mixed level are the pairs and the single terms in closed form. -/
theorem orOperands_joinAnds (ops : List LogicalOp) :
    orOperands join (joinAnds join 0 ops (singles ((List.range (ops.length + 1)).map terms))) =
      levelOperands join ops terms := by
  have hcount : tailStart ops + (ops.length + 1 - tailStart ops) = ops.length + 1 := by
    have := tailStart_le ops
    omega
  have hsplit : List.range (ops.length + 1) =
      List.range (tailStart ops) ++
        List.range' (tailStart ops) (ops.length + 1 - tailStart ops) := by
    have happend := List.range'_append_1 (s := 0) (m := tailStart ops)
      (n := ops.length + 1 - tailStart ops)
    rw [Nat.zero_add, hcount] at happend
    rw [List.range_eq_range', List.range_eq_range', happend]
  have htail : (List.range' (tailStart ops) (ops.length + 1 - tailStart ops)).filterMap
      (atomAt join (pairStarts ops) terms) =
      singles ((List.range' (tailStart ops) (ops.length + 1 - tailStart ops)).map terms) := by
    apply filterMap_atomAt_of_apart
    intro number hnumber start hstart
    have hbound := (List.mem_range'_1.1 hnumber).1
    have hstop := add_two_le_tailStart hstart
    omega
  have hatoms : joinAnds join 0 ops (singles ((List.range (ops.length + 1)).map terms)) =
      (List.range (ops.length + 1)).filterMap (atomAt join (pairStarts ops) terms) := by
    rw [List.range_eq_range', joinAnds_eq_filterMap, Nat.zero_add, ← pairStarts_eq]
  have hvalue : (fun number => (atomAt join (pairStarts ops) terms number).map Atom.value) =
      operandAt join (pairStarts ops) terms := by
    funext number
    rw [atomAt, Option.map_map]
    exact Option.map_id'
  rw [hatoms, hsplit, List.filterMap_append, htail,
    orOperands_append_singles (fun _ hatom => isTerm_of_mem_getLast? hatom), List.map_filterMap,
    hvalue, levelOperands]

end Operands

end Scim.Filter
