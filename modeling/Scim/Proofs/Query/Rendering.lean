import Scim.Proofs.Filter.Canonical
import Scim.Proofs.Filter.Legality
import Scim.Proofs.Query.Spelling

/-!
What queries say. A rendered query spells the condition of its expression, so expressions that were
read and render alike ask for the same: no name, no schema and no quoted literal can change how their
leaves are connected. Only the field that presence tests are written with must not be a path.
-/
namespace Scim

open Query

namespace Query

theorem isField_append {text more : String} (h : IsField text)
    (hmore : ∀ c ∈ more.toList, Filter.Token.isWordChar c = true) : IsField (text ++ more) := by
  obtain ⟨⟨c, cs, hchars, hc⟩, hword⟩ := h
  refine ⟨⟨c, cs ++ more.toList, by rw [String.toList_append, hchars, List.cons_append], hc⟩, ?_⟩
  intro d hd
  rw [String.toList_append] at hd
  rcases List.mem_append.1 hd with hd | hd
  · exact hword d hd
  · exact hmore d hd

theorem isField_intercalate {names : List String} (hne : names ≠ [])
    (hnames : ∀ name ∈ names, IsField name) : IsField (".".intercalate names) := by
  induction names with
  | nil => exact absurd rfl hne
  | cons name names ih =>
    cases names with
    | nil => simpa using hnames name
    | cons next names =>
      have hpoint : ∀ c ∈ ".".toList, Filter.Token.isWordChar c = true :=
        List.all_eq_true.1 rfl
      have hfirst := hnames name List.mem_cons_self
      have hrest := ih (List.cons_ne_nil _ _) fun other hother =>
        hnames other (List.mem_cons_of_mem name hother)
      rw [String.intercalate_cons_cons]
      exact isField_append (isField_append hfirst hpoint) hrest.2

theorem mem_intercalate {names : List String} {name : String} (hname : name ∈ names) {c : Char}
    (hc : c ∈ name.toList) : c ∈ (".".intercalate names).toList := by
  induction names with
  | nil => simp at hname
  | cons first names ih =>
    cases names with
    | nil =>
      obtain rfl := List.mem_singleton.1 hname
      simpa using hc
    | cons next names =>
      rw [String.intercalate_cons_cons, String.toList_append, String.toList_append]
      rcases List.mem_cons.1 hname with rfl | hname
      · exact List.mem_append_left _ (List.mem_append_left _ hc)
      · exact List.mem_append_right _ (ih hname)

end Query

namespace AttributePath

variable {path parent : AttributePath}

structure Fielded (path : AttributePath) : Prop where
  schema : ∀ schema ∈ path.schema, IsField schema
  segments : ∀ name ∈ path.segments, IsField name
  segments_ne_nil : path.schema = none → path.segments ≠ []

theorem Fielded.isField_text (h : path.Fielded) : IsField path.text := by
  obtain ⟨schema, segments⟩ := path
  cases schema with
  | none => exact isField_intercalate (h.segments_ne_nil rfl) h.segments
  | some schema =>
    have hschema := h.schema schema rfl
    by_cases hnil : segments = []
    · subst hnil
      exact hschema
    · have hcolon : ∀ c ∈ ":".toList, Filter.Token.isWordChar c = true :=
        List.all_eq_true.1 rfl
      rw [text_of_segments_ne_nil schema hnil]
      exact isField_append (isField_append hschema hcolon) (isField_intercalate hnil h.segments).2

/-- Prefixing a path keeps it a field. -/
theorem Fielded.under (h : path.Fielded) (hparent : parent.Fielded) :
    (path.under parent).Fielded := by
  refine ⟨fun schema hschema => ?_, fun name hname => ?_, fun hnone => ?_⟩
  · rcases Option.or_eq_some_iff.1 (Option.mem_def.1 hschema) with hschema | ⟨-, hschema⟩
    · exact hparent.schema schema hschema
    · exact h.schema schema hschema
  · rcases List.mem_append.1 hname with hname | hname
    · exact hparent.segments name hname
    · exact h.segments name hname
  · have hsegments := h.segments_ne_nil (Option.or_eq_none_iff.1 hnone).2
    exact List.append_ne_nil_of_right_ne_nil _ hsegments

theorem Fielded.within {outer : Option AttributePath} (h : path.Fielded)
    (houter : ∀ parent ∈ outer, parent.Fielded) : (path.within outer).Fielded := by
  cases outer with
  | none => exact h
  | some parent => exact h.under (houter parent rfl)

theorem mem_text_of_mem_schema {schema : String} (hschema : schema ∈ path.schema) {c : Char}
    (hc : c ∈ schema.toList) : c ∈ path.text.toList := by
  obtain ⟨found, segments⟩ := path
  obtain rfl : found = some schema := hschema
  cases segments with
  | nil => exact hc
  | cons name names =>
    rw [text_of_segments_ne_nil schema (List.cons_ne_nil _ _), String.toList_append,
      String.toList_append]
    exact List.mem_append_left _ (List.mem_append_left _ hc)

theorem mem_text_of_mem_segments {name : String} (hname : name ∈ path.segments) {c : Char}
    (hc : c ∈ name.toList) : c ∈ path.text.toList := by
  obtain ⟨schema, segments⟩ := path
  have hmem := mem_intercalate hname hc
  cases schema with
  | none => exact hmem
  | some schema =>
    rw [text_of_segments_ne_nil schema (List.ne_nil_of_mem hname), String.toList_append]
    exact List.mem_append_right _ hmem

/-- A path that was read from a word of a filter. -/
theorem fielded_of_readable (h : path.Readable) : path.Fielded := by
  obtain ⟨⟨-, hparse⟩, -, hword⟩ := h
  obtain ⟨hschema, hnames⟩ := leadsName_of_parse hparse
  exact ⟨fun schema hmem => ⟨hschema schema hmem, fun c hc =>
      hword c (mem_text_of_mem_schema hmem hc)⟩,
    fun name hmem => ⟨hnames name hmem, fun c hc => hword c (mem_text_of_mem_segments hmem hc)⟩,
    segments_ne_nil_of_parse hparse⟩

end AttributePath

namespace Query

theorem toList_field (path : AttributePath) : (field path).toList = fieldChars path.text := by
  rw [field, String.toList_ofList, fieldChars]

theorem glyph_op_relation (op : CompareOp) : glyph (relation op).op = glyph op := by
  cases op <;> rfl

theorem dateRange_op_relation (op : CompareOp) (bound : String) :
    dateRange (relation op).op bound = dateRange op bound := by
  cases op <;> rfl

theorem textPattern_eq_quoted (op : CompareOp) (text : String) :
    textPattern op text = Text.quoted (pattern op text) := by
  cases op <;> rfl

theorem toList_plain (path : AttributePath) (op : CompareOp) (text : String) :
    (field path ++ glyph op ++ text).toList =
      fieldChars path.text ++ ':' :: ((relation op).mark ++ text.toList) := by
  rw [String.toList_append, String.toList_append, toList_field, ← glyph_op_relation, toList_glyph,
    List.append_assoc, List.cons_append]

/-- A clause spells the comparison that its leaf asks for. -/
theorem spells_clause {path : AttributePath} {value : Operand} (op : CompareOp)
    (hpath : IsField path.text) (hne : path.text ≠ "_exists_") (hvalue : value.Readable) :
    Spells (.comparison path.text (relation op) (literal op value)) (clause path op value).toList := by
  have hplain : ∀ {found : Literal} {text : String}, Written found text.toList →
      Spells (.comparison path.text (relation op) found) (field path ++ glyph op ++ text).toList := by
    intro found text hwritten
    rw [toList_plain]
    exact .comparison hpath hne (.plain hwritten)
  cases value with
  | text text =>
    rw [clause, textPattern_eq_quoted]
    exact hplain (.text _)
  | number value => exact hplain (.number hvalue)
  | boolean value =>
    cases value
    · exact hplain (.boolean false)
    · exact hplain (.boolean true)
  | date value =>
    have hrange := Spells.comparison hpath hne (.range (relation op) value)
    rw [dateRange_op_relation] at hrange
    rw [clause, String.toList_append, String.toList_append, toList_field, List.append_assoc]
    exact hrange

theorem toList_negated (clause : String) :
    (negated clause).toList = '!' :: '(' :: (clause.toList ++ [')']) := by
  rw [negated, String.toList_append, String.toList_append]
  rfl

/-- A negated clause spells the negated comparison. -/
theorem spells_negatedIf {condition : Condition} {clause : String} (op : CompareOp)
    (h : Spells condition clause.toList) :
    Spells (.negatedIf op condition) (negatedIf op clause).toList := by
  unfold Condition.negatedIf negatedIf
  split
  · rw [toList_negated]
    exact .negation h
  · exact h

/-- A rendered query spells the condition of its expression. -/
theorem spells_renderWithin {expression : Expression} {parent : Option AttributePath} {query : String}
    (h : expression.Readable) (hparent : ∀ path ∈ parent, path.Fielded)
    (hleaves : ∀ path ∈ expression.leaves, (path.within parent).text ≠ "_exists_")
    (hquery : renderWithin parent expression = .ok query) :
    Spells (expression.conditionWithin parent) query.toList := by
  induction h generalizing parent query with
  | @present path hpath =>
    obtain rfl := Except.ok.inj hquery
    have hfield := ((AttributePath.fielded_of_readable hpath).within hparent).isField_text
    rw [String.toList_append, toList_field]
    exact .present hfield
  | @null path op hpath hop =>
    obtain ⟨-, -, hquery⟩ := Except.bind_eq_ok_iff.1 hquery
    obtain rfl := Except.ok.inj hquery
    have hfield := ((AttributePath.fielded_of_readable hpath).within hparent).isField_text
    have hcompared : Compared .eq .null "null".toList := .plain .null
    have hnull := Spells.comparison hfield (hleaves path List.mem_cons_self) hcompared
    refine spells_negatedIf op ?_
    rw [String.toList_append, toList_field]
    exact hnull
  | @comparison path op value hpath hop hvalue =>
    obtain ⟨-, -, hquery⟩ := Except.bind_eq_ok_iff.1 hquery
    obtain rfl := Except.ok.inj hquery
    have hfield := ((AttributePath.fielded_of_readable hpath).within hparent).isField_text
    exact spells_negatedIf op (spells_clause op hfield (hleaves path List.mem_cons_self) hvalue)
  | @grouping group filter hgroup hfilter ih =>
    have hfielded := (AttributePath.fielded_of_readable hgroup).within hparent
    refine ih (by simpa using hfielded) (fun path hpath => ?_) hquery
    rw [← AttributePath.within_under]
    exact hleaves _ (List.mem_map_of_mem hpath)
  | @logical op left right hleft hright ihLeft ihRight =>
    obtain ⟨leftText, hleftText, hquery⟩ := Except.bind_eq_ok_iff.1 hquery
    obtain ⟨rightText, hrightText, hquery⟩ := Except.bind_eq_ok_iff.1 hquery
    obtain rfl := Except.ok.inj hquery
    have hspells := Spells.logical op
      (ihLeft hparent (fun path hpath => hleaves path (List.mem_append_left _ hpath)) hleftText)
      (ihRight hparent (fun path hpath => hleaves path (List.mem_append_right _ hpath)) hrightText)
    simp only [String.toList_append, List.append_assoc]
    exact hspells
  | @negation filter hfilter ih =>
    obtain ⟨inner, hinner, hquery⟩ := Except.bind_eq_ok_iff.1 hquery
    obtain rfl := Except.ok.inj hquery
    rw [toList_negated]
    exact .negation (ih hparent hleaves hinner)

/-- Filters that render alike ask for the same, and their leaves are connected alike. -/
theorem condition_eq_of_render_eq {text text' query : String} {e e' : Expression}
    (hparse : Filter.parse text = .ok e) (hparse' : Filter.parse text' = .ok e')
    (hleaves : ∀ path ∈ e.leaves, path.text ≠ "_exists_")
    (hleaves' : ∀ path ∈ e'.leaves, path.text ≠ "_exists_")
    (hrender : render e = .ok query) (hrender' : render e' = .ok query) :
    e.condition = e'.condition ∧ e.shape = e'.shape := by
  have hparent : ∀ path ∈ (none : Option AttributePath), path.Fielded := by simp
  have hspells := spells_renderWithin (Filter.readable_of_parse hparse) hparent hleaves hrender
  have hspells' := spells_renderWithin (Filter.readable_of_parse hparse') hparent hleaves' hrender'
  have hend : Ends [] := Text.stops_nil _
  obtain ⟨hcondition, -⟩ := hspells.unique hspells' hend hend rfl
  refine ⟨hcondition, ?_⟩
  rw [← Expression.shape_conditionWithin none e, hcondition, Expression.shape_conditionWithin]

def sampleGrouped : Expression :=
  .logical .or
    (.grouping ⟨none, ["m"]⟩ (.logical .and
      (.comparison ⟨none, ["t"]⟩ .eq (.text "a\" AND (b"))
      (.comparison ⟨none, ["v"]⟩ .sw (.text "x"))))
    (.comparison ⟨none, ["d-1"]⟩ .ne
      (.date ⟨⟨⟨2011, 5, 13⟩, 282, 34, 500400000⟩, 0, by decide⟩))

def sampleQualified : Expression :=
  .logical .or
    (.logical .and (.comparison ⟨none, ["m", "t"]⟩ .eq (.text "a\" AND (b"))
      (.comparison ⟨none, ["m", "v"]⟩ .eq (.text "x*")))
    (.negation (.comparison ⟨none, ["d-1"]⟩ .eq
      (.date ⟨⟨⟨2011, 5, 13⟩, 402, 34, 500000000⟩, 120, by decide⟩)))

theorem condition_eq_of_render_eq_sample :
    ∃ text text' query,
      text = "m[t eq \"a\\\" AND (b\" and v sw \"x\"] or d-1 ne \"2011-05-13T04:42:34.5004Z\"" ∧
      text' = "(m.t eq \"a\\\" AND (b\" and m.v eq \"x*\") or " ++
        "not (d-1 eq \"2011-05-13T06:42:34.5+02:00\")" ∧
      query = "((m.t:\"a\\\" AND (b\" AND m.v:\"x*\") OR " ++
        "!(d\\-1:[2011-05-13T04:42:34.500Z TO 2011-05-13T04:42:34.500Z]))" ∧
      Filter.parse text = .ok sampleGrouped ∧ Filter.parse text' = .ok sampleQualified ∧
      (∀ path ∈ sampleGrouped.leaves, path.text ≠ "_exists_") ∧
      (∀ path ∈ sampleQualified.leaves, path.text ≠ "_exists_") ∧
      render sampleGrouped = .ok query ∧ render sampleQualified = .ok query ∧
      sampleGrouped.condition = sampleQualified.condition ∧
      sampleGrouped.shape = sampleQualified.shape := by
  have hparse : Filter.parse
      "m[t eq \"a\\\" AND (b\" and v sw \"x\"] or d-1 ne \"2011-05-13T04:42:34.5004Z\"" =
      .ok sampleGrouped := by rfl
  have hparse' : Filter.parse ("(m.t eq \"a\\\" AND (b\" and m.v eq \"x*\") or " ++
      "not (d-1 eq \"2011-05-13T06:42:34.5+02:00\")") = .ok sampleQualified := by rfl
  have hleaves : ∀ path ∈ sampleGrouped.leaves, path.text ≠ "_exists_" := by decide
  have hleaves' : ∀ path ∈ sampleQualified.leaves, path.text ≠ "_exists_" := by decide
  have hrender : render sampleGrouped = .ok ("((m.t:\"a\\\" AND (b\" AND m.v:\"x*\") OR " ++
      "!(d\\-1:[2011-05-13T04:42:34.500Z TO 2011-05-13T04:42:34.500Z]))") := by rfl
  have hrender' : render sampleQualified = .ok ("((m.t:\"a\\\" AND (b\" AND m.v:\"x*\") OR " ++
      "!(d\\-1:[2011-05-13T04:42:34.500Z TO 2011-05-13T04:42:34.500Z]))") := by rfl
  exact ⟨_, _, _, rfl, rfl, rfl, hparse, hparse', hleaves, hleaves', hrender, hrender',
    condition_eq_of_render_eq hparse hparse' hleaves hleaves' hrender hrender'⟩

/-- A presence test and a comparison with the field that stands in front of it. -/
example : render (.present ⟨none, ["null"]⟩) = render (.null ⟨none, ["_exists_"]⟩ .eq) := by rfl

end Query

end Scim
