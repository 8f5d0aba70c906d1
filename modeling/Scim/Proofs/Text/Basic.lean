import Scim.Text.Basic

/-!
Where parts of a text end. A run of characters that pass a test is taken as long as possible, so it is
cut off exactly where the text stops passing the test. An escaped text ends at the first special
character that is not escaped. Folding moves a capital letter by 32 code points and leaves every other
character where it is, so only letters have another character of the same fold.
-/
namespace Scim.Text

def Stops (test : Char → Bool) (cs : List Char) : Prop := ∀ c ∈ cs.head?, test c = false

theorem stops_nil (test : Char → Bool) : Stops test [] := by
  intro c hc
  simp at hc

theorem stops_cons {test : Char → Bool} {c : Char} (h : test c = false) (cs : List Char) :
    Stops test (c :: cs) := by
  intro d hd
  obtain rfl : c = d := by simpa using hd
  exact h

/-- A nonempty text decides whether its continuations stop. -/
theorem stops_append {test : Char → Bool} {cs ds : List Char}
    (hcs : Stops test cs) (hds : Stops test ds) : Stops test (cs ++ ds) := by
  cases cs with
  | nil => exact hds
  | cons c cs => exact stops_cons (hcs c rfl) _

theorem stops_dropWhile (test : Char → Bool) (cs : List Char) :
    Stops test (cs.dropWhile test) := by
  intro c hc
  have hnot := List.head?_dropWhile_not test cs
  rw [Option.mem_def.1 hc] at hnot
  exact hnot

/-- A run is taken whole, and nothing behind it. -/
theorem takeWhile_append_of_stops {test : Char → Bool} {run rest : List Char}
    (hrun : ∀ c ∈ run, test c = true) (hrest : Stops test rest) :
    (run ++ rest).takeWhile test = run := by
  rw [List.takeWhile_append_of_pos hrun]
  cases rest with
  | nil => simp
  | cons c cs => simp [hrest c rfl]

theorem dropWhile_append_of_stops {test : Char → Bool} {run rest : List Char}
    (hrun : ∀ c ∈ run, test c = true) (hrest : Stops test rest) :
    (run ++ rest).dropWhile test = rest := by
  rw [List.dropWhile_append_of_pos hrun]
  cases rest with
  | nil => simp
  | cons c cs => simp [hrest c rfl]

/-- Runs that are cut off in one text are the same run. -/
theorem eq_of_append_of_stops {test : Char → Bool} {run run' rest rest' : List Char}
    (hrun : ∀ c ∈ run, test c = true) (hrun' : ∀ c ∈ run', test c = true)
    (hrest : Stops test rest) (hrest' : Stops test rest') (h : run ++ rest = run' ++ rest') :
    run = run' ∧ rest = rest' := by
  have htake := takeWhile_append_of_stops hrun hrest
  have hdrop := dropWhile_append_of_stops hrun hrest
  rw [h, takeWhile_append_of_stops hrun' hrest'] at htake
  rw [h, dropWhile_append_of_stops hrun' hrest'] at hdrop
  exact ⟨htake.symm, hdrop.symm⟩

/-- A text is cut at the last place of a character that occurs in it. -/
theorem exists_last {c : Char} {cs : List Char} (h : c ∈ cs) :
    ∃ as bs, cs = as ++ c :: bs ∧ c ∉ bs := by
  induction cs with
  | nil => simp at h
  | cons d cs ih =>
    by_cases hcs : c ∈ cs
    · obtain ⟨as, bs, rfl, hbs⟩ := ih hcs
      exact ⟨d :: as, bs, rfl, hbs⟩
    · obtain rfl : c = d := by simpa [hcs] using h
      exact ⟨[], cs, rfl, hcs⟩

/-- A text is empty or starts with a special character, not with a backslash. -/
def Unescaped (special : Char → Bool) (cs : List Char) : Prop :=
  ∀ c ∈ cs.head?, special c = true ∧ c ≠ '\\'

theorem unescaped_cons {special : Char → Bool} {c : Char} (h : special c = true) (hne : c ≠ '\\')
    (cs : List Char) : Unescaped special (c :: cs) := by
  intro d hd
  obtain rfl : c = d := by simpa using hd
  exact ⟨h, hne⟩

theorem unescaped_nil (special : Char → Bool) : Unescaped special [] := by
  intro c hc
  simp at hc

/-- An escaped text does not start like the end of one. -/
theorem not_unescaped_backslashed {special : Char → Bool} (c : Char) (cs rest : List Char) :
    ¬Unescaped special (backslashed special (c :: cs) ++ rest) := by
  intro h
  rw [backslashed_cons] at h
  cases hc : special c with
  | true => exact (h '\\' (by simp [hc])).2 rfl
  | false =>
    have hspecial := (h c (by simp [hc])).1
    rw [hc] at hspecial
    contradiction

theorem eq_of_escaped_append {special : Char → Bool} (hspecial : special '\\' = true) {c d : Char}
    {rest rest' : List Char} (h : (if special c then ['\\', c] else [c]) ++ rest =
      (if special d then ['\\', d] else [d]) ++ rest') : c = d ∧ rest = rest' := by
  cases hc : special c with
  | true =>
    cases hd : special d with
    | true => simpa [hc, hd] using h
    | false =>
      have hhead : '\\' = d ∧ c :: rest = rest' := by simpa [hc, hd] using h
      rw [← hhead.1, hspecial] at hd
      contradiction
  | false =>
    cases hd : special d with
    | true =>
      have hhead : c = '\\' ∧ rest = d :: rest' := by simpa [hc, hd] using h
      rw [hhead.1, hspecial] at hc
      contradiction
    | false => simpa [hc, hd] using h

/-- An escaped text ends at the first special character that is not escaped. -/
theorem eq_of_backslashed_append {special : Char → Bool} (hspecial : special '\\' = true)
    {cs ds rest rest' : List Char} (hrest : Unescaped special rest) (hrest' : Unescaped special rest')
    (h : backslashed special cs ++ rest = backslashed special ds ++ rest') :
    cs = ds ∧ rest = rest' := by
  induction cs generalizing ds with
  | nil =>
    cases ds with
    | nil => exact ⟨rfl, h⟩
    | cons d ds =>
      rw [backslashed_nil, List.nil_append] at h
      exact absurd (h ▸ hrest) (not_unescaped_backslashed d ds rest')
  | cons c cs ih =>
    cases ds with
    | nil =>
      rw [backslashed_nil, List.nil_append] at h
      exact absurd (h ▸ hrest') (not_unescaped_backslashed c cs rest)
    | cons d ds =>
      rw [backslashed_cons, backslashed_cons, List.append_assoc, List.append_assoc] at h
      obtain ⟨rfl, hbelow⟩ := eq_of_escaped_append hspecial h
      obtain ⟨rfl, hrests⟩ := ih hbelow
      exact ⟨rfl, hrests⟩

theorem toNat_toLower (c : Char) :
    c.toLower.toNat = if 65 ≤ c.toNat ∧ c.toNat ≤ 90 then c.toNat + 32 else c.toNat := by
  have hcapital : (c.val ≥ 'A'.val ∧ c.val ≤ 'Z'.val) ↔ (65 ≤ c.toNat ∧ c.toNat ≤ 90) := Iff.rfl
  unfold Char.toLower
  split
  · rename_i h
    have hbounds := hcapital.1 h
    have hval : c.val.toNat = c.toNat := rfl
    have hshift : ('a'.val - 'A'.val).toNat = 32 := rfl
    rw [if_pos hbounds]
    change (c.val + ('a'.val - 'A'.val)).toNat = _
    rw [UInt32.toNat_add, hshift, hval]
    omega
  · rename_i h
    rw [if_neg fun hbounds => h (hcapital.2 hbounds)]

theorem isAlpha_iff {c : Char} : c.isAlpha = true ↔
    (65 ≤ c.toNat ∧ c.toNat ≤ 90) ∨ (97 ≤ c.toNat ∧ c.toNat ≤ 122) := by
  have hupper : c.isUpper = true ↔ (65 ≤ c.toNat ∧ c.toNat ≤ 90) := decide_eq_true_iff
  have hlower : c.isLower = true ↔ (97 ≤ c.toNat ∧ c.toNat ≤ 122) :=
    Bool.and_eq_true_iff.trans (and_congr decide_eq_true_iff decide_eq_true_iff)
  have hletter : c.isAlpha = true ↔ c.isUpper = true ∨ c.isLower = true := Bool.or_eq_true_iff
  rw [hletter, hupper, hlower]

theorem isDigit_iff {c : Char} : c.isDigit = true ↔ 48 ≤ c.toNat ∧ c.toNat ≤ 57 :=
  Bool.and_eq_true_iff.trans (and_congr decide_eq_true_iff decide_eq_true_iff)

/-- A character outside the letters is the only one of its fold. -/
theorem eq_of_toLower_eq {c d : Char} (h : c.toLower = d.toLower) (hd : d.isAlpha = false) :
    c = d := by
  have hnat := congrArg Char.toNat h
  have hletter : ¬d.isAlpha = true := by simp [hd]
  rw [isAlpha_iff] at hletter
  rw [toNat_toLower, toNat_toLower] at hnat
  apply Char.toNat_inj.1
  split at hnat <;> split at hnat <;> omega

theorem isAlpha_of_toLower_eq {c d : Char} (h : c.toLower = d.toLower) (hd : d.isAlpha = true) :
    c.isAlpha = true := by
  have hnat := congrArg Char.toNat h
  rw [isAlpha_iff] at hd ⊢
  rw [toNat_toLower, toNat_toLower] at hnat
  split at hnat <;> split at hnat <;> omega

/-- Texts that differ in more than case do so in any case. -/
theorem sameFolded_eq_false {a b c d : String} (h : sameFolded a b = false)
    (hc : sameFolded c a = true) (hd : sameFolded d b = true) : sameFolded c d = false := by
  refine Bool.eq_false_iff.2 fun hsame => ?_
  rw [sameFolded_trans (sameFolded_symm hc) (sameFolded_trans hsame hd)] at h
  exact Bool.noConfusion h

end Scim.Text
