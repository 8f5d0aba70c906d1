import Mathlib.Data.List.TakeWhile
import Scim.Proofs.Patch.ValuePath
import Scim.Proofs.Text.Basic

/-!
Where a text with a filter is cut. The filter reaches from the first opening bracket to the last
closing one, and since no attribute has brackets, this is the only way to take such a text apart.
Brackets inside the filter, in its literals and around its groupings, never move the cut.
-/
namespace Scim

open Text

namespace PatchPath

variable {target filter after cs : List Char} {sub : Option (List Char)}

def tail : Option (List Char) → List Char
  | none => []
  | some sub => '.' :: sub

theorem isBracket_eq_false {c : Char} (h : isBracket c = false) : c ≠ '[' ∧ c ≠ ']' := by
  simpa [isBracket] using h

theorem subText_tail (hne : sub ≠ some []) (hsub : ∀ cs ∈ sub, ∀ c ∈ cs, isBracket c = false) :
    subText (tail sub) = some sub := by
  cases sub with
  | none => rfl
  | some cs =>
    cases cs with
    | nil => exact absurd rfl hne
    | cons c cs =>
      have hany : (c :: cs).any isBracket = false := by
        apply List.any_eq_false.2
        intro d hd
        simp [hsub _ rfl d hd]
      rw [tail, subText, hany]
      rfl

theorem subText_eq_some (h : subText cs = some sub) :
    cs = tail sub ∧ ∀ ds ∈ sub, ∀ c ∈ ds, isBracket c = false := by
  unfold subText at h
  split at h
  · obtain rfl := Option.some.inj h
    exact ⟨rfl, by simp⟩
  · rename_i c cs
    split at h
    · simp at h
    · rename_i hany
      obtain rfl := Option.some.inj h
      refine ⟨rfl, ?_⟩
      intro ds hds d hd
      obtain rfl := Option.some.inj hds
      exact Bool.eq_false_iff.2 fun hbracket => hany (List.any_eq_true.2 ⟨d, hd, hbracket⟩)
  · simp at h

theorem closing_not_mem_tail (hsub : ∀ cs ∈ sub, ∀ c ∈ cs, isBracket c = false) :
    ']' ∉ tail sub := by
  cases sub with
  | none => simp [tail]
  | some cs =>
    rw [tail, List.mem_cons, not_or]
    refine ⟨by decide, ?_⟩
    intro hmem
    exact (isBracket_eq_false (hsub cs rfl ']' hmem)).2 rfl

/-- The characters behind the last closing bracket. -/
theorem takeWhile_reverse_append (hafter : ']' ∉ after) (cs : List Char) :
    ((cs ++ ']' :: after).reverse.takeWhile (· != ']')).reverse = after := by
  have hreverse : (cs ++ ']' :: after).reverse = after.reverse ++ ']' :: cs.reverse := by simp
  have hall : ∀ c ∈ after.reverse, (c != ']') = true := by
    intro c hc
    rw [bne_iff_ne]
    rintro rfl
    exact hafter (List.mem_reverse.1 hc)
  rw [hreverse, takeWhile_append_of_stops hall (stops_cons (by decide) _), List.reverse_reverse]

/-- A text is cut at its first opening and its last closing bracket. -/
theorem split_append (htarget : ∀ c ∈ target, isBracket c = false) (hafter : ']' ∉ after) :
    split (target ++ '[' :: (filter ++ ']' :: after)) =
      if target = [] ∨ filter = [] ∨ '\n' ∈ filter then none
      else (subText after).map fun sub => (target, filter, sub) := by
  have hrun : ∀ c ∈ target, (!isBracket c) = true := fun c hc => by rw [htarget c hc]; rfl
  have hstops : Stops (!isBracket ·) ('[' :: (filter ++ ']' :: after)) := stops_cons rfl _
  have hlength : after.length ≠ (filter ++ ']' :: after).length := by
    simp only [List.length_append, List.length_cons]
    omega
  have hfilter : (filter ++ ']' :: after).take
      ((filter ++ ']' :: after).length - after.length - 1) = filter := by
    apply List.take_left'
    simp only [List.length_append, List.length_cons]
    omega
  rw [split, dropWhile_append_of_stops hrun hstops]
  simp only [takeWhile_append_of_stops hrun hstops, takeWhile_reverse_append hafter, hfilter, hlength,
    false_or]

/-- A text is cut only where an attribute without brackets stands in front of the filter. -/
theorem split_eq_some (h : split cs = some (target, filter, sub)) :
    cs = target ++ '[' :: (filter ++ ']' :: tail sub) ∧ (∀ c ∈ target, isBracket c = false) ∧
      (∀ ds ∈ sub, ∀ c ∈ ds, isBracket c = false) ∧ '\n' ∉ filter := by
  have htarget : ∀ c ∈ cs.takeWhile (!isBracket ·), isBracket c = false := by
    intro c hc
    simpa using List.mem_takeWhile_imp hc
  have happend := List.takeWhile_append_dropWhile (p := (!isBracket ·)) (l := cs)
  cases hdrop : cs.dropWhile (!isBracket ·) with
  | nil => simp [split, hdrop] at h
  | cons c rest =>
    rw [hdrop] at happend
    by_cases hopening : c = '['
    · subst hopening
      by_cases hclosing : ']' ∈ rest
      · obtain ⟨filter', after, rfl, hafter⟩ := exists_last hclosing
        rw [← happend, split_append htarget hafter] at h
        split at h
        · simp at h
        · rename_i hparts
          obtain ⟨sub', hsub, hparts'⟩ := Option.map_eq_some_iff.1 h
          obtain ⟨rfl, hrest⟩ := Prod.mk.inj hparts'
          obtain ⟨rfl, rfl⟩ := Prod.mk.inj hrest
          obtain ⟨rfl, hbrackets⟩ := subText_eq_some hsub
          exact ⟨happend.symm, htarget, hbrackets, fun hline => hparts (.inr (.inr hline))⟩
      · -- without a closing bracket nothing ends the filter
        have hall : rest.reverse.takeWhile (· != ']') = rest.reverse := by
          apply List.takeWhile_eq_self_iff.2
          intro d hd
          rw [bne_iff_ne]
          rintro rfl
          exact hclosing (List.mem_reverse.1 hd)
        simp [split, hdrop, hall] at h
    · simp [split, hdrop, hopening] at h

def Unbracketed (text : String) : Prop := ∀ c ∈ text.toList, isBracket c = false

instance (text : String) : Decidable (Unbracketed text) :=
  decidable_of_iff (text.toList.all (!isBracket ·) = true) (by simp [Unbracketed])

def bracketed (target filter : String) : Option String → String
  | none => target ++ "[" ++ filter ++ "]"
  | some sub => target ++ "[" ++ filter ++ "]" ++ "." ++ sub

theorem toList_bracketed (target filter : String) (sub : Option String) :
    (bracketed target filter sub).toList =
      target.toList ++ '[' :: (filter.toList ++ ']' :: tail (sub.map String.toList)) := by
  cases sub <;> simp [bracketed, tail]

/-- The text that a sub-attribute is read from. No schema stands in it. -/
def SpelledSub (text : String) (path : AttributePath) : Prop :=
  Unbracketed text ∧ AttributePath.parse text = .ok path ∧ path.schema = none

end PatchPath

structure ValuePath.Spelled (path : ValuePath) (target filter : String) (sub : Option String) :
    Prop where
  unbracketed : PatchPath.Unbracketed target
  parse_target : AttributePath.parse target = .ok path.target
  parse_filter : Filter.parse filter = .ok path.filter
  rel_sub : Option.Rel PatchPath.SpelledSub sub path.sub

namespace PatchPath

variable {path : ValuePath} {text target filter : String} {sub : Option String}

theorem parseAttribute_toList {found : AttributePath} (h : AttributePath.parse text = .ok found) :
    parseAttribute text.toList = .ok found := by
  rw [parseAttribute, String.ofList_toList, h]

theorem unbracketed_of_rel {found : Option AttributePath}
    (h : Option.Rel SpelledSub sub found) :
    ∀ cs ∈ sub.map String.toList, ∀ c ∈ cs, isBracket c = false := by
  cases h with
  | none => simp
  | some hsub =>
    rintro cs hcs
    obtain rfl := Option.some.inj hcs
    exact hsub.1

theorem parseSub_of_rel {found : Option AttributePath}
    (h : Option.Rel SpelledSub sub found) :
    parseSub (sub.map String.toList) = .ok found ∧ sub.map String.toList ≠ some [] := by
  cases h with
  | none => exact ⟨rfl, by simp⟩
  | @some text found hsub =>
    obtain ⟨-, hparse, hschema⟩ := hsub
    refine ⟨?_, ?_⟩
    · rw [Option.map_some, parseSub, parseAttribute_toList hparse]
      simp only [bind, Except.bind, hschema]
      rfl
    · intro hnil
      obtain rfl := String.toList_eq_nil_iff.1 (Option.some.inj hnil)
      cases hparse

/-- The parts of a text are found again, unless the filter has a line feed. -/
theorem split_bracketed (h : path.Spelled target filter sub) :
    split (bracketed target filter sub).toList =
      if '\n' ∈ filter.toList then none
      else some (target.toList, filter.toList, sub.map String.toList) := by
  have hbrackets := unbracketed_of_rel h.rel_sub
  have htarget : target.toList ≠ [] := by
    intro hnil
    obtain rfl := String.toList_eq_nil_iff.1 hnil
    cases h.parse_target
  have hfilter : filter.toList ≠ [] := by
    intro hnil
    obtain rfl := String.toList_eq_nil_iff.1 hnil
    cases h.parse_filter
  rw [toList_bracketed, split_append h.unbracketed (closing_not_mem_tail hbrackets),
    subText_tail (parseSub_of_rel h.rel_sub).2 hbrackets]
  simp [htarget, hfilter]

/-- A text in the shape of a filtered path is read as its parts. -/
theorem parse_bracketed (h : path.Spelled target filter sub) (hline : '\n' ∉ filter.toList) :
    parse (bracketed target filter sub) = .ok (.filtered path) := by
  have hfilter : parseFilter filter.toList = .ok path.filter := by
    rw [parseFilter, String.ofList_toList, h.parse_filter]
  rw [parse, parseChars, split_bracketed h, if_neg hline]
  simp only [parseAttribute_toList h.parse_target, hfilter, (parseSub_of_rel h.rel_sub).1, bind,
    Except.bind]
  rfl

/-- A filter with a line feed is not recognised, and then its brackets are out of place. -/
theorem parse_bracketed_of_line (h : path.Spelled target filter sub) (hline : '\n' ∈ filter.toList) :
    parse (bracketed target filter sub) =
      .error (.malformedPath (bracketed target filter sub) .unbalancedBrackets) := by
  have hany : (bracketed target filter sub).toList.any isBracket = true := by
    rw [toList_bracketed]
    simp [isBracket]
  rw [parse, parseChars, split_bracketed h, if_pos hline]
  simp only [hany, if_true]

theorem parseFilter_eq_ok {cs : List Char} {filter : Expression} (h : parseFilter cs = .ok filter) :
    Filter.parse (String.ofList cs) = .ok filter := by
  unfold parseFilter at h
  split at h
  · rename_i filter' hfilter
    rw [hfilter, Except.ok.inj h]
  · simp at h

theorem rel_of_parseSub {sub : Option (List Char)} {found : Option AttributePath}
    (hbrackets : ∀ cs ∈ sub, ∀ c ∈ cs, isBracket c = false) (h : parseSub sub = .ok found) :
    Option.Rel SpelledSub (sub.map String.ofList) found := by
  cases sub with
  | none =>
    obtain rfl := Except.ok.inj h
    exact .none
  | some cs =>
    obtain ⟨path, hpath, hfound⟩ := Except.bind_eq_ok_iff.1 h
    cases hschema : path.schema with
    | some schema =>
      rw [hschema] at hfound
      simp [throw, throwThe, MonadExceptOf.throw, bind, Except.bind] at hfound
    | none =>
      rw [hschema] at hfound
      obtain rfl := Except.ok.inj hfound
      refine .some ⟨?_, parseAttribute_eq_ok hpath, hschema⟩
      rw [Unbracketed, String.toList_ofList]
      exact hbrackets cs rfl

/-- A text that is read as a filtered path has its shape. -/
theorem exists_spelled_of_parse (h : parse text = .ok (.filtered path)) :
    ∃ target filter sub, text = bracketed target filter sub ∧ path.Spelled target filter sub ∧
      '\n' ∉ filter.toList := by
  obtain ⟨target, filter, sub, value, hsplit, hvalue, hfirst, hsecond, hthird⟩ | ⟨-, _, hplain, -⟩ :=
    parse_cases h
  · obtain rfl := PatchPath.filtered.inj hvalue
    obtain ⟨htext, htarget, hbrackets, hline⟩ := split_eq_some hsplit
    have hspelled : path.Spelled (String.ofList target) (String.ofList filter)
        (sub.map String.ofList) := by
      refine ⟨?_, parseAttribute_eq_ok hfirst, parseFilter_eq_ok hsecond,
        rel_of_parseSub hbrackets hthird⟩
      rw [Unbracketed, String.toList_ofList]
      exact htarget
    refine ⟨_, _, _, ?_, hspelled, by rwa [String.toList_ofList]⟩
    apply String.toList_inj.1
    rw [toList_bracketed, htext]
    simp [Function.comp_def]
  · cases hplain

/-- A text that is a path without a filter has no brackets at all. -/
theorem unbracketed_of_parse {target : AttributePath} (h : parse text = .ok (.plain target)) :
    Unbracketed text ∧ AttributePath.parse text = .ok target := by
  obtain ⟨_, _, _, _, -, hfiltered, -⟩ | ⟨hany, found, hplain, hfound⟩ := parse_cases h
  · cases hfiltered
  · obtain rfl := PatchPath.plain.inj hplain
    refine ⟨?_, by simpa using parseAttribute_eq_ok hfound⟩
    intro c hc
    simpa using List.any_eq_false.1 hany c hc

/-- A text is a path with a filter exactly if it puts an attribute, a filter in brackets without a
line feed, and perhaps a sub-attribute together. However the filter uses brackets itself, the first
opening and the last closing bracket of the text are those around it. With a line feed in the filter
the path is malformed. -/
theorem parse_eq_filtered_iff (text : String) (path : ValuePath) :
    (parse text = .ok (.filtered path) ↔
      ∃ target filter sub, text = bracketed target filter sub ∧ path.Spelled target filter sub ∧
        '\n' ∉ filter.toList) ∧
    ∀ target filter sub, text = bracketed target filter sub → path.Spelled target filter sub →
      text.toList.takeWhile (· != '[') = target.toList ∧
      (text.toList.reverse.takeWhile (· != ']')).reverse = tail (sub.map String.toList) ∧
      (parse text = .ok (.filtered path) ↔ '\n' ∉ filter.toList) ∧
      ('\n' ∈ filter.toList → parse text = .error (.malformedPath text .unbalancedBrackets)) := by
  constructor
  · constructor
    · exact exists_spelled_of_parse
    · rintro ⟨target, filter, sub, rfl, hspelled, hline⟩
      exact parse_bracketed hspelled hline
  · rintro target filter sub rfl hspelled
    have hbrackets := unbracketed_of_rel hspelled.rel_sub
    refine ⟨?_, ?_, ?_, parse_bracketed_of_line hspelled⟩
    · rw [toList_bracketed]
      apply takeWhile_append_of_stops
      · intro c hc
        exact bne_iff_ne.2 (isBracket_eq_false (hspelled.unbracketed c hc)).1
      · exact stops_cons (by decide) _
    · rw [toList_bracketed, ← List.cons_append, ← List.append_assoc]
      exact takeWhile_reverse_append (closing_not_mem_tail hbrackets) _
    · constructor
      · intro hparse hline
        rw [parse_bracketed_of_line hspelled hline] at hparse
        cases hparse
      · exact parse_bracketed hspelled

/-- Brackets in literals, one of them in front of a point, and around a grouping. The same filter over
two lines is refused. -/
theorem parse_eq_filtered_iff_sample :
    ∃ (path other : ValuePath) (target filter lines sub : String),
      target = "emails" ∧ filter = "v eq \"].x\" and m[t eq \"[\"]" ∧ sub = "value.part" ∧
      lines = "v eq \"].x\"\nand m[t eq \"[\"]" ∧
      path.Spelled target filter (some sub) ∧ other.Spelled target lines none ∧
      parse "emails[v eq \"].x\" and m[t eq \"[\"]].value.part" = .ok (.filtered path) ∧
      parse "emails[v eq \"].x\"\nand m[t eq \"[\"]]" = .error (.malformedPath
        "emails[v eq \"].x\"\nand m[t eq \"[\"]]" .unbalancedBrackets) := by
  have htarget : Unbracketed "emails" := by decide
  have hsub : SpelledSub "value.part" ⟨none, ["value", "part"]⟩ := ⟨by decide, rfl, rfl⟩
  have hspelled : ValuePath.Spelled ⟨⟨none, ["emails"]⟩,
      .logical .and (.comparison ⟨none, ["v"]⟩ .eq (.text "].x"))
        (.grouping ⟨none, ["m"]⟩ (.comparison ⟨none, ["t"]⟩ .eq (.text "["))),
      some ⟨none, ["value", "part"]⟩⟩
      "emails" "v eq \"].x\" and m[t eq \"[\"]" (some "value.part") :=
    ⟨htarget, rfl, rfl, .some hsub⟩
  have hother : ValuePath.Spelled ⟨⟨none, ["emails"]⟩,
      .logical .and (.comparison ⟨none, ["v"]⟩ .eq (.text "].x"))
        (.grouping ⟨none, ["m"]⟩ (.comparison ⟨none, ["t"]⟩ .eq (.text "["))), none⟩
      "emails" "v eq \"].x\"\nand m[t eq \"[\"]" none :=
    ⟨htarget, rfl, rfl, .none⟩
  have hline : '\n' ∉ "v eq \"].x\" and m[t eq \"[\"]".toList := by decide
  have hparse := (parse_eq_filtered_iff "emails[v eq \"].x\" and m[t eq \"[\"]].value.part" _).1.2
    ⟨_, _, _, rfl, hspelled, hline⟩
  have hrefused := ((parse_eq_filtered_iff "emails[v eq \"].x\"\nand m[t eq \"[\"]]" _).2
    _ _ _ rfl hother).2.2.2 (by decide)
  exact ⟨_, _, _, _, _, _, rfl, rfl, rfl, rfl, hspelled, hother, hparse, hrefused⟩

end PatchPath

end Scim
