import Scim.Proofs.Time.Utc

/-!
The characters of timestamps. The strict spelling is read from digits and from the signs that instants
are printed with, so nothing else stands in a text that spells a date-time strictly.
-/
namespace Scim.Timestamp

/-- What is left of a text behind some characters of timestamps. -/
def Behind (cs rest : List Char) : Prop :=
  ∃ front, cs = front ++ rest ∧ ∀ c ∈ front, isUtcChar c = true

variable {cs ds rest : List Char}

theorem behind_refl (cs : List Char) : Behind cs cs := ⟨[], rfl, by simp⟩

theorem behind_cons {c : Char} (hc : isUtcChar c = true) (cs : List Char) : Behind (c :: cs) cs :=
  ⟨[c], rfl, by simpa using hc⟩

theorem Behind.trans (h : Behind cs ds) (h' : Behind ds rest) : Behind cs rest := by
  obtain ⟨front, rfl, hfront⟩ := h
  obtain ⟨middle, rfl, hmiddle⟩ := h'
  refine ⟨front ++ middle, (List.append_assoc _ _ _).symm, fun c hc => ?_⟩
  rcases List.mem_append.1 hc with hc | hc
  · exact hfront c hc
  · exact hmiddle c hc

theorem isUtcChar_of_isDigit {c : Char} (h : c.isDigit = true) : isUtcChar c = true := by
  rw [isUtcChar, h, Bool.true_or]

theorem behind_dropWhile_isDigit (cs : List Char) : Behind cs (cs.dropWhile Char.isDigit) :=
  ⟨cs.takeWhile Char.isDigit, List.takeWhile_append_dropWhile.symm, fun _ hc =>
    isUtcChar_of_isDigit (List.all_eq_true.1 List.all_takeWhile _ hc)⟩

theorem behind_readDigit {digit : Nat} (h : readDigit cs = some (digit, rest)) : Behind cs rest := by
  cases cs with
  | nil => simp [readDigit] at h
  | cons c cs =>
    simp only [readDigit, Option.ite_none_right_eq_some, Option.some.injEq, Prod.mk.injEq] at h
    obtain ⟨hdigit, -, rfl⟩ := h
    exact behind_cons (isUtcChar_of_isDigit hdigit) cs

theorem behind_readNumber {width value n : Nat} (h : readNumber width value cs = some (n, rest)) :
    Behind cs rest := by
  induction width generalizing value cs with
  | zero =>
    simp only [readNumber, Option.some.injEq, Prod.mk.injEq] at h
    exact h.2 ▸ behind_refl cs
  | succ width ih =>
    obtain ⟨⟨digit, ds⟩, hdigit, hrest⟩ := Option.bind_eq_some_iff.1 h
    exact (behind_readDigit hdigit).trans (ih hrest)

theorem behind_readOneOf {allowed : List Char} (hallowed : allowed.all isUtcChar = true)
    (h : readOneOf allowed cs = some rest) : Behind cs rest := by
  cases cs with
  | nil => simp [readOneOf] at h
  | cons c cs =>
    simp only [readOneOf, Option.ite_none_right_eq_some, Option.some.injEq] at h
    obtain ⟨hmem, rfl⟩ := h
    exact behind_cons (List.all_eq_true.1 hallowed c hmem) cs

theorem behind_readDate {date : Date} (h : readDate cs = some (date, rest)) : Behind cs rest := by
  obtain ⟨⟨year, cs₁⟩, hyear, h⟩ := Option.bind_eq_some_iff.1 h
  obtain ⟨cs₂, hhyphen, h⟩ := Option.bind_eq_some_iff.1 h
  obtain ⟨⟨month, cs₃⟩, hmonth, h⟩ := Option.bind_eq_some_iff.1 h
  obtain ⟨cs₄, hhyphen', h⟩ := Option.bind_eq_some_iff.1 h
  obtain ⟨⟨day, cs₅⟩, hday, h⟩ := Option.bind_eq_some_iff.1 h
  obtain ⟨-, rfl⟩ := Prod.mk.inj (Option.some.inj h)
  exact ((((behind_readNumber hyear).trans (behind_readOneOf rfl hhyphen)).trans
    (behind_readNumber hmonth)).trans (behind_readOneOf rfl hhyphen')).trans (behind_readNumber hday)

theorem behind_readMinutes {minutes : Nat} (h : readMinutes cs = some (minutes, rest)) :
    Behind cs rest := by
  obtain ⟨⟨hour, cs₁⟩, hhour, h⟩ := Option.bind_eq_some_iff.1 h
  obtain ⟨cs₂, hcolon, h⟩ := Option.bind_eq_some_iff.1 h
  obtain ⟨⟨minute, cs₃⟩, hminute, h⟩ := Option.bind_eq_some_iff.1 h
  obtain ⟨-, h⟩ := Option.ite_none_right_eq_some.1 h
  obtain ⟨-, rfl⟩ := Prod.mk.inj (Option.some.inj h)
  exact ((behind_readNumber hhour).trans (behind_readOneOf rfl hcolon)).trans
    (behind_readNumber hminute)

theorem behind_readFraction {nanosecond : Nat} (h : readFraction cs = some (nanosecond, rest)) :
    Behind cs rest := by
  unfold readFraction at h
  split at h
  · rename_i cs
    split at h
    · simp at h
    · obtain ⟨-, rfl⟩ := Prod.mk.inj (Option.some.inj h)
      exact (behind_cons rfl cs).trans (behind_dropWhile_isDigit cs)
  · obtain ⟨-, rfl⟩ := Prod.mk.inj (Option.some.inj h)
    exact behind_refl _

/-- An offset is read up to the end of the text. -/
theorem behind_readOffset {offset : Int} (h : readOffset .strict cs = some offset) :
    Behind cs [] := by
  cases cs with
  | nil => simp [readOffset] at h
  | cons c cs =>
    simp only [readOffset] at h
    split at h
    · rename_i hzulu
      obtain ⟨rfl, -⟩ := Option.ite_none_right_eq_some.1 h
      exact behind_cons (List.all_eq_true.1 (rfl : Spelling.strict.zulus.all isUtcChar = true) c hzulu) []
    · split at h
      · rename_i minutes hminutes
        have hsign : isUtcChar c = true := by
          split at h
          · rename_i hplus
            exact hplus ▸ rfl
          · obtain ⟨hminus, -⟩ := Option.ite_none_right_eq_some.1 h
            exact List.all_eq_true.1 (rfl : Spelling.strict.minuses.all isUtcChar = true) c hminus
        exact (behind_cons hsign cs).trans (behind_readMinutes hminutes)
      · simp at h

/-- A text that spells a date-time strictly has the characters of timestamps only. -/
theorem isUtcChar_of_read {text : String} {t : DateTime} (h : read .strict text = some t) :
    ∀ c ∈ text.toList, isUtcChar c = true := by
  obtain ⟨⟨date, cs₁⟩, hdate, h⟩ := Option.bind_eq_some_iff.1 h
  obtain ⟨cs₂, hseparator, h⟩ := Option.bind_eq_some_iff.1 h
  obtain ⟨⟨minute, cs₃⟩, hminute, h⟩ := Option.bind_eq_some_iff.1 h
  obtain ⟨cs₄, hcolon, h⟩ := Option.bind_eq_some_iff.1 h
  obtain ⟨⟨second, cs₅⟩, hsecond, h⟩ := Option.bind_eq_some_iff.1 h
  obtain ⟨⟨nanosecond, cs₆⟩, hfraction, h⟩ := Option.bind_eq_some_iff.1 h
  obtain ⟨offset, hoffset, -⟩ := Option.bind_eq_some_iff.1 h
  have hclock : Behind text.toList cs₄ :=
    (((behind_readDate hdate).trans (behind_readOneOf rfl hseparator)).trans
      (behind_readMinutes hminute)).trans (behind_readOneOf rfl hcolon)
  obtain ⟨front, htext, hfront⟩ := ((hclock.trans (behind_readNumber hsecond)).trans
    (behind_readFraction hfraction)).trans (behind_readOffset hoffset)
  rw [htext, List.append_nil]
  exact hfront

end Scim.Timestamp
