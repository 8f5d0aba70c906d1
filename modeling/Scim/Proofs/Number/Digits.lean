import Mathlib.Algebra.Group.Nat.Defs
import Scim.Proofs.Text.Basic

/-!
Digits of natural numbers. A number is printed without needless zeros, and a text of digits without
them is what its number is printed as. Zeros behind the digits multiply by ten.
-/
namespace Scim.Digits

theorem isDigit_of_mem_toDigits {n : Nat} {c : Char} (hc : c ∈ Nat.toDigits 10 n) :
    c.isDigit = true :=
  Nat.isDigit_of_mem_toDigits (by decide) (by decide) hc

theorem isDigit_of_mem_zeros {n : Nat} {c : Char} (hc : c ∈ List.replicate n '0') :
    c.isDigit = true := by
  rw [List.eq_of_mem_replicate hc]
  rfl

theorem head?_toDigits_ne_zero {n : Nat} (hn : n ≠ 0) : (Nat.toDigits 10 n).head? ≠ some '0' := by
  induction n using Nat.strongRecOn with
  | ind n ih =>
    rw [Nat.toDigits_eq_if (by decide)]
    split
    · rename_i hlt
      have hdigit : ∀ d < 10, d ≠ 0 → Nat.digitChar d ≠ '0' := by decide
      simpa using hdigit n hlt hn
    · rename_i hge
      have htens := ih (n / 10) (by omega) (by omega)
      cases hdigits : Nat.toDigits 10 (n / 10) with
      | nil => exact absurd hdigits Nat.toDigits_ne_nil
      | cons d ds =>
        rw [hdigits] at htens
        exact htens

theorem toDigits_plain (n : Nat) :
    Nat.toDigits 10 n = ['0'] ∨ (Nat.toDigits 10 n).head? ≠ some '0' := by
  by_cases hn : n = 0
  · subst hn
    exact .inl (Nat.toDigits_zero 10)
  · exact .inr (head?_toDigits_ne_zero hn)

theorem all_isDigit_toDigits (n : Nat) : (Nat.toDigits 10 n).all Char.isDigit = true :=
  List.all_eq_true.2 fun _ hc => isDigit_of_mem_toDigits hc

theorem head?_toDigits_ne {c : Char} (hc : c.isDigit = false) (n : Nat) :
    (Nat.toDigits 10 n).head? ≠ some c := by
  intro hhead
  have hdigit := List.all_eq_true.1 (all_isDigit_toDigits n) c (List.mem_of_head? hhead)
  rw [hc] at hdigit
  exact Bool.noConfusion hdigit

theorem exists_digitChar {c : Char} (h : c.isDigit = true) : ∃ d < 10, Nat.digitChar d = c := by
  rw [Text.isDigit_iff] at h
  have hlt : c.toNat - 48 < 10 := by omega
  refine ⟨c.toNat - 48, hlt, Char.toNat_inj.1 ?_⟩
  rw [Nat.toNat_digitChar_of_lt_ten hlt]
  omega

/-- Digits behind a number that is not zero are its further digits. -/
theorem toDigits_append {cs : List Char} (hcs : ∀ c ∈ cs, c.isDigit = true) {n : Nat} (hn : n ≠ 0) :
    Nat.toDigits 10 n ++ cs = Nat.toDigits 10 (Nat.ofDigitChars 10 cs n) := by
  induction cs generalizing n with
  | nil => rw [List.append_nil, Nat.ofDigitChars_nil]
  | cons c cs ih =>
    obtain ⟨d, hd, rfl⟩ := exists_digitChar (hcs c List.mem_cons_self)
    have hnext := Nat.toDigits_append_toDigits (b := 10) (by decide) (Nat.pos_of_ne_zero hn) hd
    rw [Nat.toDigits_of_lt_base hd] at hnext
    rw [Nat.ofDigitChars_cons_digitChar_of_lt_ten hd,
      ← ih (fun c hc => hcs c (List.mem_cons_of_mem _ hc)) (by omega), ← hnext, List.append_assoc]
    rfl

/-- Digits without needless zeros are the printed form of their number. -/
theorem toDigits_ofDigitChars {cs : List Char} (hplain : cs = ['0'] ∨ cs.head? ≠ some '0')
    (hne : cs ≠ []) (hcs : ∀ c ∈ cs, c.isDigit = true) :
    Nat.toDigits 10 (Nat.ofDigitChars 10 cs 0) = cs := by
  rcases hplain with rfl | hhead
  · rfl
  obtain ⟨c, cs, rfl⟩ := List.exists_cons_of_ne_nil hne
  obtain ⟨d, hd, rfl⟩ := exists_digitChar (hcs c List.mem_cons_self)
  have hzero : d ≠ 0 := by
    rintro rfl
    exact hhead rfl
  rw [Nat.ofDigitChars_cons_digitChar_of_lt_ten hd, Nat.mul_zero, Nat.zero_add,
    ← toDigits_append (fun c hc => hcs c (List.mem_cons_of_mem _ hc)) hzero,
    Nat.toDigits_of_lt_base hd]
  rfl

theorem toDigits_mul_ten {n : Nat} (hn : 0 < n) :
    Nat.toDigits 10 (10 * n) = Nat.toDigits 10 n ++ ['0'] := by
  have h := Nat.toDigits_append_toDigits (b := 10) (by decide) hn (d := 0) (by decide)
  rw [Nat.toDigits_zero, Nat.add_zero] at h
  exact h.symm

/-- Zeros behind the digits multiply by a power of ten. -/
theorem toDigits_mul_pow {n : Nat} (hn : 0 < n) (k : Nat) :
    Nat.toDigits 10 (n * 10 ^ k) = Nat.toDigits 10 n ++ List.replicate k '0' := by
  induction k with
  | zero => simp
  | succ k ih =>
    have hpos : 0 < n * 10 ^ k := Nat.mul_pos hn (Nat.pow_pos (by decide))
    have hmul : n * 10 ^ (k + 1) = 10 * (n * 10 ^ k) := by
      rw [Nat.pow_succ, ← Nat.mul_assoc, Nat.mul_comm]
    rw [hmul, toDigits_mul_ten hpos, ih, List.replicate_succ', List.append_assoc]

theorem exists_eq_mul_pow {n : Nat} (hn : n ≠ 0) : ∃ m k, n = m * 10 ^ k ∧ m % 10 ≠ 0 := by
  induction n using Nat.strongRecOn with
  | ind n ih =>
    by_cases hlast : n % 10 = 0
    · obtain ⟨m, k, hm, hm10⟩ := ih (n / 10) (by omega) (by omega)
      refine ⟨m, k + 1, ?_, hm10⟩
      calc
        n = n / 10 * 10 := by omega
        _ = m * 10 ^ (k + 1) := by rw [hm, Nat.mul_assoc, ← Nat.pow_succ]
    · exact ⟨n, 0, by simp, hlast⟩

theorem stops_reverse_toDigits {m : Nat} (hm : m % 10 ≠ 0) :
    Text.Stops (· == '0') (Nat.toDigits 10 m).reverse := by
  rw [Nat.toDigits_eq_if (by decide)]
  split
  · exact Text.stops_cons (by simp; omega) _
  · rw [List.reverse_append]
    exact Text.stops_cons (by simp; omega) _

theorem getLast?_toDigits_ne_zero {m : Nat} (hm : m % 10 ≠ 0) :
    (Nat.toDigits 10 m).getLast? ≠ some '0' := by
  rw [← List.head?_reverse]
  intro hhead
  exact absurd (stops_reverse_toDigits hm '0' hhead) (by decide)

theorem takeWhile_zero (cs : List Char) :
    cs.takeWhile (· == '0') = List.replicate (cs.takeWhile (· == '0')).length '0' := by
  refine List.eq_replicate_iff.2 ⟨rfl, fun c hc => ?_⟩
  exact eq_of_beq (List.all_eq_true.1 List.all_takeWhile c hc)

/-- Digits are cut in front of the zeros at their end. -/
theorem take_append_zeros (cs : List Char) :
    cs.take (cs.length - (cs.reverse.takeWhile (· == '0')).length) ++
      List.replicate (cs.reverse.takeWhile (· == '0')).length '0' = cs := by
  have hsplit : cs = (cs.reverse.dropWhile (· == '0')).reverse ++
      List.replicate (cs.reverse.takeWhile (· == '0')).length '0' := by
    rw [← List.reverse_replicate, ← takeWhile_zero, ← List.reverse_append,
      List.takeWhile_append_dropWhile, List.reverse_reverse]
  generalize (cs.reverse.takeWhile (· == '0')).length = zeros at hsplit ⊢
  generalize (cs.reverse.dropWhile (· == '0')).reverse = digits at hsplit
  rw [hsplit, List.length_append, List.length_replicate, Nat.add_sub_cancel, List.take_left]

end Scim.Digits
