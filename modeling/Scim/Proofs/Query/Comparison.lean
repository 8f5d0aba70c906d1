import Scim.Proofs.Query.Condition
import Scim.Proofs.Text.Basic

/-!
The texts of comparisons. What stands behind the colon of a field shows by its first characters what it
is and where it ends: a quoted literal at the first quote that is not escaped, a range at its bracket,
and anything else in front of a blank or a parenthesis. So no text starts with two comparisons, whatever
stands inside literals.
-/
namespace Scim.Query

open Text

inductive Written : Literal → List Char → Prop
  | text (pattern : String) : Written (.text pattern) (quoted pattern).toList
  | number {value : Decimal} (h : value.scale ≤ 9223372036854775807) :
      Written (.number value.value) (numberText value).toList
  | boolean (value : Bool) :
      Written (.boolean value) (if value then "true" else "false").toList
  | null : Written .null "null".toList

def opened? (c : Char) : Option ValueType :=
  if c.isDigit ∨ c = '.' ∨ c = '-' ∨ c = '\\' then some .number
  else if c = '"' then some .text
  else if c = 't' ∨ c = 'f' then some .boolean
  else if c = 'n' then some .null
  else if c = '[' ∨ c = '\x7b' then some .date
  else none

/-- The text is over, or a blank or a parenthesis ends what stands in front of it. -/
def Ends (rest : List Char) : Prop := Stops (fun c => c != ' ' && c != ')') rest

theorem toList_numberText (value : Decimal) :
    (numberText value).toList =
      (if value.text.toList.head? = some '-' then ['\\'] else []) ++ value.text.toList := by
  unfold numberText
  split
  · rename_i cs htext
    simp [htext]
  · rename_i cs hne
    rw [String.toList_ofList, if_neg, List.nil_append]
    intro hhead
    obtain ⟨cs, hcs⟩ := List.head?_eq_some_iff.1 hhead
    exact hne cs hcs

theorem opened?_of_mem_numberText {value : Decimal} {c : Char}
    (hc : c ∈ (numberText value).toList) : opened? c = some .number := by
  refine if_pos ?_
  rw [toList_numberText] at hc
  rcases List.mem_append.1 hc with hc | hc
  · split at hc
    · exact .inr (.inr (.inr (List.mem_singleton.1 hc)))
    · simp at hc
  · rcases Decimal.mem_text hc with hc | hc | hc
    · exact .inl hc
    · exact .inr (.inl hc)
    · exact .inr (.inr (.inl hc))

theorem numberText_ne_nil {value : Decimal} (h : value.scale ≤ 9223372036854775807) :
    (numberText value).toList ≠ [] := by
  intro hnil
  rw [toList_numberText, List.append_eq_nil_iff, String.toList_eq_nil_iff] at hnil
  obtain ⟨read, hread, -⟩ := Decimal.exists_read_text h
  rw [hnil.2] at hread
  cases hread

/-- A number's text is told by its escaped text. -/
theorem text_eq_of_numberText_eq {value value' : Decimal}
    (h : (numberText value).toList = (numberText value').toList) : value.text = value'.text := by
  have hplain : ∀ d : Decimal, (numberText d).toList.filter (· != '\\') = d.text.toList := by
    intro d
    have hnone : ∀ c ∈ d.text.toList, (c != '\\') = true := by
      intro c hc
      rw [bne_iff_ne]
      rintro rfl
      have := Decimal.mem_text hc
      simp at this
    rw [toList_numberText, List.filter_append, List.filter_eq_self.2 hnone]
    split
    · rfl
    · rfl
  rw [← String.toList_inj, ← hplain, h, hplain]

/-- Every literal starts with a character of its type. -/
theorem Written.exists_cons {literal : Literal} {cs : List Char} (h : Written literal cs) :
    ∃ c ds, cs = c :: ds ∧ opened? c = some literal.type := by
  cases h with
  | text pattern => exact ⟨_, _, toList_quoted pattern, rfl⟩
  | number hscale =>
    obtain ⟨c, ds, hcs⟩ := List.exists_cons_of_ne_nil (numberText_ne_nil hscale)
    exact ⟨c, ds, hcs, opened?_of_mem_numberText (hcs ▸ List.mem_cons_self)⟩
  | boolean value =>
    cases value
    · exact ⟨_, _, rfl, rfl⟩
    · exact ⟨_, _, rfl, rfl⟩
  | null => exact ⟨_, _, rfl, rfl⟩

/-- No text starts with two literals. -/
theorem Written.unique {literal literal' : Literal} {cs cs' rest rest' : List Char}
    (h : Written literal cs) (h' : Written literal' cs') (hrest : Ends rest) (hrest' : Ends rest')
    (heq : cs ++ rest = cs' ++ rest') : literal = literal' ∧ rest = rest' := by
  have htype : literal.type = literal'.type := by
    obtain ⟨c, ds, rfl, hc⟩ := h.exists_cons
    obtain ⟨c', ds', rfl, hc'⟩ := h'.exists_cons
    rw [(List.cons.inj heq).1, hc'] at hc
    exact (Option.some.inj hc).symm
  cases h with
  | text pattern =>
    cases h' with
    | text pattern' =>
      have hquote : ∀ cs, Unescaped isQuoteSpecial ('"' :: cs) := unescaped_cons rfl (by decide)
      simp only [toList_quoted, List.cons_append, List.append_assoc, List.nil_append] at heq
      obtain ⟨hpattern, hrests⟩ :=
        eq_of_backslashed_append rfl (hquote rest) (hquote rest') (List.cons.inj heq).2
      exact ⟨congrArg Literal.text (String.toList_inj.1 hpattern), (List.cons.inj hrests).2⟩
    | _ => cases htype
  | number hscale =>
    cases h' with
    | number hscale' =>
      have hrun : ∀ value : Decimal, ∀ c ∈ (numberText value).toList,
          (c != ' ' && c != ')') = true := by
        intro value c hc
        have hopened := opened?_of_mem_numberText hc
        rw [Bool.and_eq_true, bne_iff_ne, bne_iff_ne]
        exact ⟨ne_of_apply_ne opened? (by rw [hopened]; decide),
          ne_of_apply_ne opened? (by rw [hopened]; decide)⟩
      obtain ⟨hnumber, hrests⟩ := eq_of_append_of_stops (hrun _) (hrun _) hrest hrest' heq
      have hvalue := Decimal.value_eq_of_text_eq hscale hscale' (text_eq_of_numberText_eq hnumber)
      exact ⟨congrArg Literal.number hvalue, hrests⟩
    | _ => cases htype
  | boolean value =>
    cases h' with
    | boolean value' => cases value <;> cases value' <;> simp_all
    | _ => cases htype
  | null =>
    cases h' with
    | null => exact ⟨rfl, List.append_cancel_left heq⟩
    | _ => cases htype

def Relation.mark : Relation → List Char
  | eq => []
  | gt => ['>']
  | ge => ['>', '=']
  | lt => ['<']
  | le => ['<', '=']

theorem toList_glyph (relation : Relation) : (glyph relation.op).toList = ':' :: relation.mark := by
  cases relation <;> rfl

/-- The mark behind the colon tells the relation. -/
theorem Relation.mark_injective {relation relation' : Relation}
    (h : relation.mark = relation'.mark) : relation = relation' := by
  cases relation <;> cases relation' <;> first | rfl | cases h

theorem Relation.opened?_of_mem_mark {relation : Relation} :
    ∀ c ∈ relation.mark, (opened? c).isNone = true := by
  refine List.all_eq_true.1 ?_
  cases relation <;> rfl

/-- A range between two bounds. The characters around it tell which of them it includes. -/
structure Range where
  opening : Char
  lower : List Char
  upper : List Char
  closing : Char
  deriving DecidableEq

def Range.chars (range : Range) : List Char :=
  range.opening :: (range.lower ++ (" TO ".toList ++ (range.upper ++ [range.closing])))

/-- The dates in a relation to a bound. A star leaves a side open. -/
def Relation.range (relation : Relation) (bound : List Char) : Range :=
  match relation with
  | eq => ⟨'[', bound, bound, ']'⟩
  | gt => ⟨'\x7b', bound, ['*'], ']'⟩
  | ge => ⟨'[', bound, ['*'], ']'⟩
  | lt => ⟨'[', ['*'], bound, '\x7d'⟩
  | le => ⟨'[', ['*'], bound, ']'⟩

theorem toList_dateRange (relation : Relation) (bound : String) :
    (dateRange relation.op bound).toList = (relation.range bound.toList).chars := by
  cases relation <;> simp [dateRange, Relation.op, Relation.range, Range.chars]

inductive Compared : Relation → Literal → List Char → Prop
  | plain {relation : Relation} {literal : Literal} {cs : List Char} (h : Written literal cs) :
      Compared relation literal (relation.mark ++ cs)
  | range (relation : Relation) (value : DateTime) :
      Compared relation (.date value.instant.truncated)
        (dateRange relation.op (Timestamp.utcText value)).toList

def isBoundChar (c : Char) : Bool := c != ' ' && c != ']' && c != '\x7d'

def Bound (cs : List Char) : Prop := cs ≠ ['*'] ∧ ∀ c ∈ cs, isBoundChar c = true

namespace Relation

variable {relation relation' : Relation} {bound bound' : List Char}

/-- A range tells its relation and its bound. -/
theorem range_injective (hbound : Bound bound) (hbound' : Bound bound')
    (h : relation.range bound = relation'.range bound') : relation = relation' ∧ bound = bound' := by
  have hstar := hbound.1
  have hstar' := hbound'.1.symm
  cases relation <;> cases relation' <;> simp_all [range]

theorem isBoundChar_of_mem_range (relation : Relation) (hbound : Bound bound) :
    (∀ c ∈ (relation.range bound).lower, isBoundChar c = true) ∧
      ∀ c ∈ (relation.range bound).upper, isBoundChar c = true := by
  have hstar : ∀ c ∈ ['*'], isBoundChar c = true := List.all_eq_true.1 rfl
  cases relation with
  | eq => exact ⟨hbound.2, hbound.2⟩
  | gt => exact ⟨hbound.2, hstar⟩
  | ge => exact ⟨hbound.2, hstar⟩
  | lt => exact ⟨hstar, hbound.2⟩
  | le => exact ⟨hstar, hbound.2⟩

theorem isBoundChar_closing : isBoundChar (relation.range bound).closing = false := by
  cases relation <;> rfl

/-- No text starts with two ranges. -/
theorem range_unique {rest rest' : List Char} (hbound : Bound bound) (hbound' : Bound bound')
    (h : (relation.range bound).chars ++ rest = (relation'.range bound').chars ++ rest') :
    relation = relation' ∧ bound = bound' ∧ rest = rest' := by
  have hblank : ∀ cs, Stops isBoundChar (" TO ".toList ++ cs) := stops_cons rfl
  have hchars := isBoundChar_of_mem_range relation hbound
  have hchars' := isBoundChar_of_mem_range relation' hbound'
  simp only [Range.chars, List.cons_append, List.append_assoc, List.nil_append] at h
  obtain ⟨hopening, h⟩ := List.cons.inj h
  obtain ⟨hlower, h⟩ := eq_of_append_of_stops hchars.1 hchars'.1 (hblank _) (hblank _) h
  obtain ⟨hupper, h⟩ := eq_of_append_of_stops hchars.2 hchars'.2
    (stops_cons isBoundChar_closing rest) (stops_cons isBoundChar_closing rest')
    (List.append_cancel_left h)
  obtain ⟨hclosing, hrests⟩ := List.cons.inj h
  have hrange : relation.range bound = relation'.range bound' := by
    rw [Range.mk.injEq]
    exact ⟨hopening, hlower, hupper, hclosing⟩
  obtain ⟨hrelation, hbounds⟩ := range_injective hbound hbound' hrange
  exact ⟨hrelation, hbounds, hrests⟩

end Relation

/-- The text of a timestamp is a bound. -/
theorem bound_utcText (value : DateTime) : Bound (Timestamp.utcText value).toList := by
  have hchars := Timestamp.isUtcChar_of_mem_utcText (t := value)
  refine ⟨fun hstar => ?_, fun c hc => ?_⟩
  · rw [hstar] at hchars
    exact absurd (hchars '*' List.mem_cons_self) (by decide)
  · have hutc := hchars c hc
    have hne : ∀ d, Timestamp.isUtcChar d = false → c ≠ d := fun d hd =>
      ne_of_apply_ne Timestamp.isUtcChar (by rw [hutc, hd]; decide)
    simp only [isBoundChar, Bool.and_eq_true, bne_iff_ne]
    exact ⟨⟨hne ' ' rfl, hne ']' rfl⟩, hne '\x7d' rfl⟩

/-- A literal behind the mark of its relation is no range. -/
theorem Written.ne_range {relation relation' : Relation} {literal : Literal}
    {cs bound rest rest' : List Char} (h : Written literal cs) :
    relation.mark ++ cs ++ rest ≠ (relation'.range bound).chars ++ rest' := by
  have hdate : literal.type ≠ .date := by
    cases h <;> simp [Literal.type]
  have hopen : opened? (relation'.range bound).opening = some .date := by
    cases relation' <;> rfl
  obtain ⟨c, ds, rfl, hc⟩ := h.exists_cons
  intro heq
  have hhead := congrArg List.head? heq
  cases relation with
  | eq =>
    obtain rfl := Option.some.inj hhead
    rw [hopen] at hc
    exact hdate (Option.some.inj hc).symm
  | _ =>
    rw [← Option.some.inj hhead] at hopen
    cases hopen

/-- No text starts with two comparisons of one field. -/
theorem Compared.unique {relation relation' : Relation} {literal literal' : Literal}
    {cs cs' rest rest' : List Char} (h : Compared relation literal cs)
    (h' : Compared relation' literal' cs') (hrest : Ends rest) (hrest' : Ends rest')
    (heq : cs ++ rest = cs' ++ rest') :
    relation = relation' ∧ literal = literal' ∧ rest = rest' := by
  cases h with
  | plain hliteral =>
    cases h' with
    | plain hliteral' =>
      obtain ⟨c, ds, hcs, hc⟩ := hliteral.exists_cons
      obtain ⟨c', ds', hcs', hc'⟩ := hliteral'.exists_cons
      rw [List.append_assoc, List.append_assoc] at heq
      obtain ⟨hmark, heq⟩ := eq_of_append_of_stops Relation.opened?_of_mem_mark
        Relation.opened?_of_mem_mark (hcs ▸ stops_cons (by simp [hc]) _)
        (hcs' ▸ stops_cons (by simp [hc']) _) heq
      exact ⟨Relation.mark_injective hmark, hliteral.unique hliteral' hrest hrest' heq⟩
    | range value =>
      rw [toList_dateRange] at heq
      exact absurd heq hliteral.ne_range
  | range value =>
    cases h' with
    | plain hliteral' =>
      rw [toList_dateRange] at heq
      exact absurd heq.symm hliteral'.ne_range
    | range value' =>
      rw [toList_dateRange, toList_dateRange] at heq
      obtain ⟨hrelation, hbound, hrests⟩ :=
        Relation.range_unique (bound_utcText value) (bound_utcText value') heq
      have hdate := Timestamp.truncated_eq_of_utcText_eq (String.toList_inj.1 hbound)
      exact ⟨hrelation, congrArg Literal.date hdate, hrests⟩

end Scim.Query
