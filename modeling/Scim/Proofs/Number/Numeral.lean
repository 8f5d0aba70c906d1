import Scim.Number.Numeral
import Scim.Proofs.Text.Basic

/-!
The texts that number literals are: a sign or none, digits, a point with digits or nothing, and an
exponent or none. Reading a literal accepts exactly these texts, and it finds the parts that the
text is put together from.
-/
namespace Scim.Numeral

open Text

inductive SignText : List Char → Bool → Prop
  | minus : SignText ['-'] true
  | plus : SignText ['+'] false
  | absent : SignText [] false

def DigitText (ds : List Char) : Prop := ds ≠ [] ∧ ∀ c ∈ ds, isDecimalDigit c = true

inductive FractionText : List Char → List Char → Prop
  | point {ds : List Char} (hds : DigitText ds) : FractionText ('.' :: ds) ds
  | absent : FractionText [] []

inductive ExponentText : List Char → Bool → List Char → Prop
  | marked {c : Char} {sign ds : List Char} {negative : Bool} (hc : c = 'e' ∨ c = 'E')
      (hsign : SignText sign negative) (hds : DigitText ds) :
      ExponentText (c :: (sign ++ ds)) negative ds
  | absent : ExponentText [] false []

inductive Spelled : List Char → Numeral → Prop
  | parts {sign whole fraction exponent fractionDigits exponentDigits : List Char}
      {negative exponentNegative : Bool} (hsign : SignText sign negative)
      (hwhole : DigitText whole) (hfraction : FractionText fraction fractionDigits)
      (hexponent : ExponentText exponent exponentNegative exponentDigits) :
      Spelled (sign ++ (whole ++ (fraction ++ exponent)))
        ⟨negative, whole, fractionDigits, exponentNegative, exponentDigits⟩

/-- Digits are read up to the first character that is none. -/
theorem readDigits_append {ds rest : List Char} (hds : DigitText ds)
    (hrest : Stops isDecimalDigit rest) : readDigits (ds ++ rest) = some (ds, rest) := by
  unfold readDigits
  rw [takeWhile_append_of_stops hds.2 hrest, dropWhile_append_of_stops hds.2 hrest]
  cases ds with
  | nil => exact absurd rfl hds.1
  | cons d ds => rfl

theorem eq_append_of_readDigits {cs ds rest : List Char} (h : readDigits cs = some (ds, rest)) :
    DigitText ds ∧ cs = ds ++ rest ∧ Stops isDecimalDigit rest := by
  unfold readDigits at h
  split at h
  · simp at h
  · rename_i hne
    obtain ⟨rfl, rfl⟩ := Prod.mk.inj (Option.some.inj h)
    refine ⟨⟨fun hnil => hne hnil, fun c hc => ?_⟩, ?_, stops_dropWhile _ _⟩
    · exact List.all_eq_true.1 List.all_takeWhile c hc
    · exact List.takeWhile_append_dropWhile.symm

/-- What follows a sign is a digit, so a sign that is there is always read. -/
theorem readSign_append {sign ds : List Char} {negative : Bool} (hsign : SignText sign negative)
    (hds : DigitText ds) (rest : List Char) :
    readSign (sign ++ (ds ++ rest)) = (negative, ds ++ rest) := by
  cases hsign with
  | minus => rfl
  | plus => rfl
  | absent =>
    obtain ⟨hne, hdigits⟩ := hds
    cases ds with
    | nil => exact absurd rfl hne
    | cons d ds =>
      have hd := hdigits d List.mem_cons_self
      have hminus : d ≠ '-' := by rintro rfl; exact absurd hd (by decide)
      have hplus : d ≠ '+' := by rintro rfl; exact absurd hd (by decide)
      simp only [List.nil_append, List.cons_append]
      unfold readSign
      split
      · simp_all
      · simp_all
      · rfl

theorem eq_append_of_readSign (cs : List Char) :
    ∃ sign, SignText sign (readSign cs).1 ∧ cs = sign ++ (readSign cs).2 := by
  unfold readSign
  split
  · exact ⟨['-'], .minus, rfl⟩
  · exact ⟨['+'], .plus, rfl⟩
  · exact ⟨[], .absent, rfl⟩

theorem readFraction_append {fraction ds rest : List Char} (hfraction : FractionText fraction ds)
    (hrest : Stops isDecimalDigit rest) (hpoint : ∀ cs, rest ≠ '.' :: cs) :
    readFraction (fraction ++ rest) = some (ds, rest) := by
  cases hfraction with
  | point hds => exact readDigits_append hds hrest
  | absent =>
    unfold readFraction
    split
    · rename_i cs heq
      exact absurd heq (hpoint cs)
    · rfl

theorem eq_append_of_readFraction {cs ds rest : List Char}
    (h : readFraction cs = some (ds, rest)) :
    ∃ fraction, FractionText fraction ds ∧ cs = fraction ++ rest := by
  unfold readFraction at h
  split at h
  · obtain ⟨hds, rfl, -⟩ := eq_append_of_readDigits h
    exact ⟨'.' :: ds, .point hds, rfl⟩
  · obtain ⟨rfl, rfl⟩ := Prod.mk.inj (Option.some.inj h)
    exact ⟨[], .absent, rfl⟩

/-- What is read as an exponent is one, and nothing follows it. -/
theorem readExponent_eq_some_iff {cs ds : List Char} {negative : Bool} :
    readExponent cs = some (negative, ds) ↔ ExponentText cs negative ds := by
  constructor
  · intro h
    unfold readExponent at h
    split at h
    · obtain ⟨rfl, rfl⟩ := Prod.mk.inj (Option.some.inj h)
      exact .absent
    · rename_i c cs
      split at h
      · rename_i hc
        split at h
        · rename_i digits hdigits
          obtain ⟨hneg, rfl⟩ := Prod.mk.inj (Option.some.inj h)
          obtain ⟨sign, hsign, hcs⟩ := eq_append_of_readSign cs
          obtain ⟨hds, hrest, -⟩ := eq_append_of_readDigits hdigits
          rw [hrest, List.append_nil] at hcs
          rw [hcs]
          exact .marked hc (hneg ▸ hsign) hds
        · simp at h
      · simp at h
  · intro h
    cases h with
    | absent => rfl
    | @marked c sign _ _ hc hsign hds =>
      have hread := readSign_append hsign hds []
      have hdigits := readDigits_append hds (stops_nil isDecimalDigit)
      simp only [List.append_nil] at hread hdigits
      simp only [readExponent, hc, if_true, hread, hdigits]

/-- After the digits of the whole part or the fraction an exponent stops the run, and no point can
follow. -/
theorem ExponentText.stops {cs ds : List Char} {negative : Bool}
    (h : ExponentText cs negative ds) :
    Stops isDecimalDigit cs ∧ ∀ rest, cs ≠ '.' :: rest := by
  cases h with
  | absent => exact ⟨stops_nil _, by simp⟩
  | marked hc _ _ =>
    rcases hc with rfl | rfl
    · exact ⟨stops_cons (by decide) _, by simp⟩
    · exact ⟨stops_cons (by decide) _, by simp⟩

theorem FractionText.stops {cs ds : List Char} (h : FractionText cs ds) :
    Stops isDecimalDigit cs := by
  cases h with
  | absent => exact stops_nil _
  | point _ => exact stops_cons (by decide) _

theorem read_of_spelled {cs : List Char} {n : Numeral} (h : Spelled cs n) : read cs = some n := by
  obtain ⟨hsign, hwhole, hfraction, hexponent⟩ := h
  have hstops := stops_append hfraction.stops hexponent.stops.1
  have hpoint := readFraction_append hfraction hexponent.stops.1 hexponent.stops.2
  simp only [read, readSign_append hsign hwhole, readDigits_append hwhole hstops, hpoint,
    readExponent_eq_some_iff.2 hexponent, Option.bind_eq_bind, Option.bind_some, Option.pure_def]

theorem spelled_of_read {cs : List Char} {n : Numeral} (h : read cs = some n) : Spelled cs n := by
  simp only [read, Option.bind_eq_bind, Option.pure_def, Option.bind_eq_some_iff] at h
  obtain ⟨⟨whole, rest⟩, hwhole, ⟨fraction, rest'⟩, hfraction, ⟨negative, exponent⟩, hexponent,
    hn⟩ := h
  dsimp only at hfraction hexponent hn
  obtain ⟨sign, hsign, hcs⟩ := eq_append_of_readSign cs
  obtain ⟨hwhole, hrest, -⟩ := eq_append_of_readDigits hwhole
  obtain ⟨text, hfraction, hrest'⟩ := eq_append_of_readFraction hfraction
  rw [hcs, hrest, hrest', ← Option.some.inj hn]
  exact .parts hsign hwhole hfraction (readExponent_eq_some_iff.1 hexponent)

theorem SignText.mem {sign : List Char} {negative : Bool} (h : SignText sign negative) {c : Char}
    (hc : c ∈ sign) : c ∈ ['-', '+', '.', 'e', 'E'] := by
  cases h with
  | minus => simp [List.mem_singleton.1 hc]
  | plus => simp [List.mem_singleton.1 hc]
  | absent => simp at hc

/-- The characters of a number literal are digits of its parts and marks between them. -/
theorem Spelled.mem {cs : List Char} {n : Numeral} (h : Spelled cs n) {c : Char} (hc : c ∈ cs) :
    c ∈ n.whole ++ n.fraction ++ n.exponent ∨ c ∈ ['-', '+', '.', 'e', 'E'] := by
  obtain ⟨hsign, hwhole, hfraction, hexponent⟩ := h
  simp only [List.mem_append] at hc ⊢
  rcases hc with hc | hc | hc | hc
  · exact .inr (hsign.mem hc)
  · exact .inl (.inl (.inl hc))
  · cases hfraction with
    | absent => simp at hc
    | point hdigits =>
      rcases List.mem_cons.1 hc with rfl | hc
      · exact .inr (by decide)
      · exact .inl (.inl (.inr hc))
  · cases hexponent with
    | absent => simp at hc
    | marked hmark hsign hdigits =>
      rcases List.mem_cons.1 hc with rfl | hc
      · rcases hmark with rfl | rfl
        · exact .inr (by decide)
        · exact .inr (by decide)
      · rcases List.mem_append.1 hc with hc | hc
        · exact .inr (hsign.mem hc)
        · exact .inl (.inr hc)

theorem Spelled.whole_ne_nil {cs : List Char} {n : Numeral} (h : Spelled cs n) : n.whole ≠ [] := by
  obtain ⟨-, hwhole, -, -⟩ := h
  exact hwhole.1

theorem Spelled.head {cs : List Char} {n : Numeral} (h : Spelled cs n) {c : Char}
    (hc : cs.head? = some c) : c = '-' ∨ c = '+' ∨ c ∈ n.whole := by
  obtain ⟨hsign, ⟨hne, -⟩, -, -⟩ := h
  cases hsign with
  | minus => exact .inl (Option.some.inj hc).symm
  | plus => exact .inr (.inl (Option.some.inj hc).symm)
  | absent =>
    obtain ⟨d, ds, rfl⟩ := List.exists_cons_of_ne_nil hne
    obtain rfl := Option.some.inj hc
    exact .inr (.inr List.mem_cons_self)

/-- Reading accepts exactly the number literals. -/
theorem read_eq_some_iff {cs : List Char} {n : Numeral} : read cs = some n ↔ Spelled cs n :=
  ⟨spelled_of_read, read_of_spelled⟩

end Scim.Numeral
