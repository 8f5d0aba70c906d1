import Scim.Proofs.Attribute.Path
import Scim.Proofs.Filter.Scanning
import Scim.Proofs.Query.Comparison

/-!
The texts of conditions. A field ends at the first colon that is not escaped, and a connective stands
between parentheses of its own. Main statement: no text starts with two conditions, whatever stands
inside names and literals.
-/
namespace Scim.Query

open Text

def IsField (field : String) : Prop :=
  AttributePath.LeadsName field ∧ ∀ c ∈ field.toList, Filter.Token.isWordChar c = true

def fieldChars (field : String) : List Char := backslashed isFieldSpecial field.toList

/-- The texts of conditions. The field in front of the colon of a presence test is none of a
comparison. -/
inductive Spells : Condition → List Char → Prop
  | present {field : String} (hfield : IsField field) :
      Spells (.present field) (fieldChars "_exists_" ++ ':' :: fieldChars field)
  | comparison {field : String} {relation : Relation} {literal : Literal} {cs : List Char}
      (hfield : IsField field) (hne : field ≠ "_exists_") (hcs : Compared relation literal cs) :
      Spells (.comparison field relation literal) (fieldChars field ++ ':' :: cs)
  | logical (op : LogicalOp) {left right : Condition} {cs ds : List Char} (hleft : Spells left cs)
      (hright : Spells right ds) :
      Spells (.logical op left right)
        ('(' :: (cs ++ ((connective op).toList ++ (ds ++ [')']))))
  | negation {condition : Condition} {cs : List Char} (h : Spells condition cs) :
      Spells (.negation condition) ('!' :: '(' :: (cs ++ [')']))

/-- A field ends at the first colon that is not escaped. -/
theorem eq_of_fieldChars_append {field field' : String} {cs cs' : List Char}
    (h : fieldChars field ++ ':' :: cs = fieldChars field' ++ ':' :: cs') :
    field = field' ∧ cs = cs' := by
  have hcolon : ∀ cs, Unescaped isFieldSpecial (':' :: cs) := unescaped_cons rfl (by decide)
  obtain ⟨hfield, htail⟩ := eq_of_backslashed_append rfl (hcolon cs) (hcolon cs') h
  exact ⟨String.toList_inj.1 hfield, (List.cons.inj htail).2⟩

theorem isWordChar_of_mem_fieldChars {field : String} (h : IsField field) :
    ∀ c ∈ fieldChars field, Filter.Token.isWordChar c = true := by
  intro c hc
  obtain ⟨d, hd, hc⟩ := List.mem_flatMap.1 hc
  split at hc
  · rcases List.mem_cons.1 hc with rfl | hc
    · decide
    · exact h.2 c (List.mem_singleton.1 hc ▸ hd)
  · exact h.2 c (List.mem_singleton.1 hc ▸ hd)

theorem Ends.stops_isWordChar {rest : List Char} (h : Ends rest) :
    Stops Filter.Token.isWordChar rest := by
  intro c hc
  have hends := h c hc
  simp only [Bool.and_eq_false_iff, bne_eq_false_iff_eq] at hends
  rcases hends with rfl | rfl
  · decide
  · decide

/-- A field at the end of a condition ends where the condition does. -/
theorem eq_of_fieldChars_ends {field field' : String} {rest rest' : List Char} (h : IsField field)
    (h' : IsField field') (hrest : Ends rest) (hrest' : Ends rest')
    (heq : fieldChars field ++ rest = fieldChars field' ++ rest') :
    field = field' ∧ rest = rest' := by
  obtain ⟨hfield, hrests⟩ := eq_of_append_of_stops (isWordChar_of_mem_fieldChars h)
    (isWordChar_of_mem_fieldChars h') hrest.stops_isWordChar hrest'.stops_isWordChar heq
  have happend : fieldChars field ++ [] = fieldChars field' ++ [] := by rw [hfield]
  have hchars := eq_of_backslashed_append rfl (unescaped_nil _) (unescaped_nil _) happend
  exact ⟨String.toList_inj.1 hchars.1, hrests⟩

def Condition.sign? : Condition → Option Char
  | .present _ => none
  | .comparison _ _ _ => none
  | .logical _ _ _ => some '('
  | .negation _ => some '!'

theorem exists_fieldChars_cons {field : String} (h : AttributePath.LeadsName field) :
    ∃ c cs, fieldChars field = c :: cs ∧ AttributePath.isNameStart c = true := by
  obtain ⟨c, cs, hchars, hc⟩ := h
  have hplain : isFieldSpecial c = false := by
    rw [Bool.eq_false_iff]
    intro hspecial
    simp only [isFieldSpecial, Bool.or_eq_true, beq_iff_eq] at hspecial
    obtain ((rfl | rfl) | rfl) | rfl := hspecial <;> cases hc
  refine ⟨c, backslashed isFieldSpecial cs, ?_, hc⟩
  rw [fieldChars, hchars, backslashed_cons, hplain]
  rfl

theorem Spells.exists_cons {condition : Condition} {cs : List Char} (h : Spells condition cs) :
    ∃ c ds, cs = c :: ds ∧
      condition.sign? = if AttributePath.isNameStart c then none else some c := by
  cases h with
  | present hfield => exact ⟨_, _, rfl, rfl⟩
  | comparison hfield hne hcs =>
    obtain ⟨c, ds, hchars, hc⟩ := exists_fieldChars_cons hfield.1
    exact ⟨c, _, by rw [hchars, List.cons_append], by rw [if_pos hc, Condition.sign?]⟩
  | logical op hleft hright => exact ⟨_, _, rfl, rfl⟩
  | negation h => exact ⟨_, _, rfl, rfl⟩

/-- The first character tells the sign of a condition. -/
theorem Spells.sign?_eq {condition condition' : Condition} {cs cs' rest rest' : List Char}
    (h : Spells condition cs) (h' : Spells condition' cs') (heq : cs ++ rest = cs' ++ rest') :
    condition.sign? = condition'.sign? := by
  obtain ⟨c, ds, rfl, hsign⟩ := h.exists_cons
  obtain ⟨c', ds', rfl, hsign'⟩ := h'.exists_cons
  rw [hsign, hsign', (List.cons.inj heq).1]

theorem ends_blank (cs : List Char) : Ends (' ' :: cs) := stops_cons rfl cs

theorem ends_close (cs : List Char) : Ends (')' :: cs) := stops_cons rfl cs

theorem ends_connective (op : LogicalOp) (cs : List Char) : Ends ((connective op).toList ++ cs) := by
  cases op with
  | and => exact ends_blank _
  | or => exact ends_blank _

/-- The connective behind a condition can be told. -/
theorem eq_of_connective_append {op op' : LogicalOp} {cs cs' : List Char}
    (h : (connective op).toList ++ cs = (connective op').toList ++ cs') : op = op' ∧ cs = cs' := by
  cases op with
  | and =>
    cases op' with
    | and => exact ⟨rfl, List.append_cancel_left h⟩
    | or => cases h
  | or =>
    cases op' with
    | and => cases h
    | or => exact ⟨rfl, List.append_cancel_left h⟩

/-- No text starts with two conditions. -/
theorem Spells.unique {condition condition' : Condition} {cs cs' rest rest' : List Char}
    (h : Spells condition cs) (h' : Spells condition' cs') (hrest : Ends rest) (hrest' : Ends rest')
    (heq : cs ++ rest = cs' ++ rest') : condition = condition' ∧ rest = rest' := by
  -- the rests vary with the induction: a part of a condition is followed by what is left of the whole
  induction h generalizing condition' cs' rest rest' with
  | present hfield =>
    have hsign := (Spells.present hfield).sign?_eq h' heq
    cases h' with
    | present hfield' =>
      rw [List.append_assoc, List.append_assoc] at heq
      obtain ⟨-, htail⟩ := eq_of_fieldChars_append heq
      obtain ⟨rfl, hrests⟩ := eq_of_fieldChars_ends hfield hfield' hrest hrest' htail
      exact ⟨rfl, hrests⟩
    | comparison hfield' hne' hcs' =>
      rw [List.append_assoc, List.append_assoc] at heq
      exact absurd (eq_of_fieldChars_append heq).1.symm hne'
    | _ => cases hsign
  | comparison hfield hne hcs =>
    have hsign := (Spells.comparison hfield hne hcs).sign?_eq h' heq
    cases h' with
    | present hfield' =>
      rw [List.append_assoc, List.append_assoc] at heq
      exact absurd (eq_of_fieldChars_append heq).1 hne
    | comparison hfield' hne' hcs' =>
      rw [List.append_assoc, List.append_assoc] at heq
      obtain ⟨rfl, htail⟩ := eq_of_fieldChars_append heq
      obtain ⟨rfl, rfl, hrests⟩ := hcs.unique hcs' hrest hrest' htail
      exact ⟨rfl, hrests⟩
    | _ => cases hsign
  | logical op hleft hright ihLeft ihRight =>
    have hsign := (Spells.logical op hleft hright).sign?_eq h' heq
    cases h' with
    | logical op' hleft' hright' =>
      simp only [List.cons_append, List.append_assoc, List.nil_append] at heq
      obtain ⟨rfl, hconnective⟩ := ihLeft hleft' (ends_connective _ _) (ends_connective _ _)
        (List.cons.inj heq).2
      obtain ⟨rfl, hbehind⟩ := eq_of_connective_append hconnective
      obtain ⟨rfl, hclose⟩ := ihRight hright' (ends_close _) (ends_close _) hbehind
      exact ⟨rfl, (List.cons.inj hclose).2⟩
    | _ => cases hsign
  | negation h ih =>
    have hsign := (Spells.negation h).sign?_eq h' heq
    cases h' with
    | negation h' =>
      simp only [List.cons_append, List.append_assoc, List.nil_append] at heq
      obtain ⟨rfl, hclose⟩ := ih h' (ends_close _) (ends_close _)
        (List.cons.inj (List.cons.inj heq).2).2
      exact ⟨rfl, (List.cons.inj hclose).2⟩
    | _ => cases hsign

end Scim.Query
