import Mathlib.Data.List.Forall2

/-!
Results that may be faults, taken apart: where a chain of steps ends well, every step did.
-/
namespace Except

variable {ε α β γ : Type}

theorem map_eq_ok_iff {f : α → β} {result : Except ε α} {b : β} :
    result.map f = .ok b ↔ ∃ a, result = .ok a ∧ f a = b := by
  cases result <;> simp [Except.map]

theorem bind_eq_ok_iff {f : α → Except ε β} {result : Except ε α} {b : β} :
    (result >>= f) = .ok b ↔ ∃ a, result = .ok a ∧ f a = .ok b := by
  cases result <;> simp [bind, Except.bind]

theorem toOption_bind (result : Except ε α) (f : α → Except ε β) :
    (result >>= f).toOption = result.toOption.bind fun a => (f a).toOption := by
  cases result <;> rfl

theorem bind_congr {f g : α → Except ε β} {result : Except ε α}
    (h : ∀ a, result = .ok a → f a = g a) : result >>= f = result >>= g := by
  cases result with
  | error error => rfl
  | ok a => exact h a rfl

theorem ite_eq_ok_iff {p : Prop} [Decidable p] {a b : α} {error : ε} :
    (if p then (.ok a : Except ε α) else .error error) = .ok b ↔ p ∧ a = b := by
  split <;> simp [*]

theorem map_map (f : α → β) (g : β → γ) (result : Except ε α) :
    (result.map f).map g = result.map fun a => g (f a) := by
  cases result <;> rfl

/-- A fold that succeeds succeeds with its first step and then with the others. -/
theorem foldlM_cons_eq_ok_iff {step : α → β → Except ε α} {state last : α} {b : β} {bs : List β} :
    (b :: bs).foldlM step state = .ok last ↔
      ∃ next, step state b = .ok next ∧ bs.foldlM step next = .ok last := by
  rw [List.foldlM_cons, bind_eq_ok_iff]

/-- What every step preserves holds after the last one. -/
theorem foldlM_preserves {step : α → β → Except ε α} {P : α → Prop} {bs : List β} {state last : α}
    (hstep : ∀ b ∈ bs, ∀ before after, P before → step before b = .ok after → P after)
    (h : P state) (hlast : bs.foldlM step state = .ok last) : P last := by
  induction bs generalizing state with
  | nil =>
    obtain rfl := Except.ok.inj hlast
    exact h
  | cons b bs ih =>
    obtain ⟨next, hnext, hlast⟩ := foldlM_cons_eq_ok_iff.1 hlast
    have hP : P next := hstep b List.mem_cons_self state next h hnext
    exact ih (fun other hother => hstep other (List.mem_cons_of_mem b hother)) hP hlast

/-- A list is mapped exactly if every element is. -/
theorem mapM_eq_ok_iff {f : α → Except ε β} {as : List α} {bs : List β} :
    as.mapM f = .ok bs ↔ List.Forall₂ (fun a b => f a = .ok b) as bs := by
  induction as generalizing bs with
  | nil => simp [pure, Except.pure, eq_comm]
  | cons a as ih =>
    simp only [List.mapM_cons, bind_eq_ok_iff, ih, List.forall₂_cons_left_iff, pure, Except.pure,
      Except.ok.injEq]
    constructor
    · rintro ⟨b, hb, bs, hbs, rfl⟩
      exact ⟨b, bs, hb, hbs, rfl⟩
    · rintro ⟨b, bs, hb, hbs, rfl⟩
      exact ⟨b, hb, bs, hbs, rfl⟩

end Except
