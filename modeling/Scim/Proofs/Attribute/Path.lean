import Scim.Attribute.Path
import Scim.Proofs.Result
import Scim.Proofs.Text.Basic

/-!
Reading attribute paths. A path that was read prints as the text that it was read from. Its attribute
names are names, and its schema starts like a URN.
-/
namespace Scim.AttributePath

theorem splitLastColon_append (cs ds : List Char) (hds : ':' ∉ ds) :
    splitLastColon (cs ++ ':' :: ds) = (cs, ':' :: ds) := by
  have hreverse : (cs ++ ':' :: ds).reverse = ds.reverse ++ ':' :: cs.reverse := by simp
  have hall : ∀ c ∈ ds.reverse, (c != ':') = true := by
    intro c hc
    simp only [bne_iff_ne]
    rintro rfl
    exact hds (List.mem_reverse.1 hc)
  have htail : ((cs ++ ':' :: ds).reverse.takeWhile (· != ':')).length + 1 = (':' :: ds).length := by
    rw [hreverse, List.takeWhile_append_of_pos hall]
    simp
  have hlength : (cs ++ ':' :: ds).length - (':' :: ds).length = cs.length := by
    simp only [List.length_append]
    omega
  simp only [splitLastColon, htail, hlength, List.take_left', List.drop_left']

/-- A known schema is found in any case, in front of a colon or the end. -/
theorem splitKnown_eq_some {cs schema rest : List Char} {known : String}
    (h : splitKnown cs known = some (schema, rest)) :
    cs = schema ++ rest ∧ schema.map Char.toLower = Text.folded known ∧
      (rest.head?.getD ':') = ':' := by
  simp only [splitKnown] at h
  split at h
  · rename_i hknown
    obtain ⟨rfl, rfl⟩ := Prod.mk.inj (Option.some.inj h)
    exact ⟨(List.take_append_drop _ _).symm, hknown⟩
  · simp at h

/-- A schema and what follows it make up the text. What follows is nothing or starts with a colon. -/
theorem splitSchema_append {cs : List Char} (h : ':' ∈ cs) :
    cs = (splitSchema cs).1 ++ (splitSchema cs).2 ∧
      ((splitSchema cs).2.head?.getD ':') = ':' := by
  unfold splitSchema
  cases hknown : knownSchemas.findSome? (splitKnown cs) with
  | some split =>
    obtain ⟨known, -, hsplit⟩ := List.exists_of_findSome?_eq_some hknown
    obtain ⟨hcs, -, hhead⟩ := splitKnown_eq_some hsplit
    exact ⟨hcs, hhead⟩
  | none =>
    obtain ⟨as, bs, rfl, hbs⟩ := Text.exists_last h
    rw [Option.getD_none, splitLastColon_append as bs hbs]
    exact ⟨rfl, rfl⟩

/-- What starts like a URN starts with a letter and has a colon. -/
theorem isUrn_eq_true {cs : List Char} (h : isUrn cs = true) :
    (∃ c rest, cs = c :: rest ∧ c.isAlpha = true) ∧ ':' ∈ cs := by
  rcases cs with _ | ⟨a, _ | ⟨b, _ | ⟨c, _ | ⟨d, rest⟩⟩⟩⟩
  · simp [isUrn] at h
  · simp [isUrn] at h
  · simp [isUrn] at h
  · simp [isUrn] at h
  · obtain ⟨ha, -, -, hd⟩ : a.toLower = 'u' ∧ b.toLower = 'r' ∧ c.toLower = 'n' ∧
        d.toLower = ':' := by simpa [isUrn] using h
    have hcolon : d = ':' := Text.eq_of_toLower_eq (hd.trans (by decide)) (by decide)
    have hletter : a.isAlpha = true :=
      Text.isAlpha_of_toLower_eq (ha.trans (by decide : 'u' = 'u'.toLower)) (by decide)
    exact ⟨⟨a, _, rfl, hletter⟩, by simp [hcolon]⟩

/-- Names are what stands between the points, and each of them is legal. -/
theorem names_eq_ok {schema : Option String} {cs : List Char} {path : AttributePath}
    (h : names schema cs = .ok path) :
    path = ⟨schema, (cs.splitOn '.').map String.ofList⟩ ∧
      ∀ name ∈ cs.splitOn '.', isName name = true := by
  unfold names at h
  split at h
  · simp at h
  · rename_i hnone
    refine ⟨(Except.ok.inj h).symm, fun name hname => ?_⟩
    simpa using List.find?_eq_none.1 hnone name hname

theorem segments_ne_nil_of_names {schema : Option String} {cs : List Char} {path : AttributePath}
    (h : names schema cs = .ok path) : path.segments ≠ [] := by
  obtain ⟨rfl, -⟩ := names_eq_ok h
  simp [List.splitOn_ne_nil]

/-- A path without names has a schema. -/
theorem segments_ne_nil_of_parse {text : String} {path : AttributePath}
    (h : parse text = .ok path) (hschema : path.schema = none) : path.segments ≠ [] := by
  simp only [parse] at h
  split at h
  · simp at h
  split at h
  · split at h
    · rw [← Except.ok.inj h] at hschema
      simp at hschema
    · simp at h
    · exact segments_ne_nil_of_names h
  split at h
  · simp at h
  · exact segments_ne_nil_of_names h

theorem text_of_segments_ne_nil (schema : String) {segments : List String} (h : segments ≠ []) :
    text ⟨some schema, segments⟩ = schema ++ ":" ++ ".".intercalate segments := by
  cases segments with
  | nil => exact absurd rfl h
  | cons name names => rfl

/-- A path that was read prints as the text that it was read from. -/
theorem text_of_parse {text : String} {path : AttributePath} (h : parse text = .ok path) :
    path.text = text := by
  simp only [parse] at h
  split at h
  · simp at h
  split at h
  · rename_i hurn
    obtain ⟨happend, hhead⟩ := splitSchema_append (isUrn_eq_true hurn).2
    split at h
    · rename_i hrest
      obtain rfl := Except.ok.inj h
      rw [hrest, List.append_nil] at happend
      simp only [AttributePath.text, ← happend, String.ofList_toList]
    · simp at h
    · rename_i c cs _ hrest
      obtain ⟨rfl, -⟩ := names_eq_ok h
      rw [hrest] at happend hhead
      obtain rfl : c = ':' := by simpa using hhead
      have hsegments : (cs.splitOn '.').map String.ofList ≠ [] := by
        simp [List.splitOn_ne_nil]
      apply String.toList_inj.1
      refine Eq.trans ?_ happend.symm
      rw [text_of_segments_ne_nil _ hsegments]
      simp
  split at h
  · simp at h
  · obtain ⟨rfl, -⟩ := names_eq_ok h
    apply String.toList_inj.1
    simp [AttributePath.text]

theorem isNameChar_of_isName {cs : List Char} (h : isName cs = true) {c : Char} (hc : c ∈ cs) :
    c.isAlphanum = true ∨ c ∈ ['$', '_', '-'] := by
  cases cs with
  | nil => simp at hc
  | cons d ds =>
    simp only [isName, Bool.and_eq_true, List.all_eq_true] at h
    rcases List.mem_cons.1 hc with rfl | hc
    · have hstart := h.1
      simp only [isNameStart, Bool.or_eq_true, beq_iff_eq] at hstart
      rcases hstart with (hstart | rfl) | rfl
      · simp [Char.isAlphanum, hstart]
      · simp
      · simp
    · have hrest := h.2 c hc
      simp only [isNameRest, Bool.or_eq_true, beq_iff_eq] at hrest
      rcases hrest with (hrest | rfl) | rfl
      · exact .inl hrest
      · simp
      · simp

/-- A name by itself is a path. -/
theorem parse_of_isName {name : String} (h : isName name.toList = true) :
    parse name = .ok ⟨none, [name]⟩ := by
  have hcolon : ':' ∉ name.toList := fun hc => absurd (isNameChar_of_isName h hc) (by decide)
  have hpoint : '.' ∉ name.toList := fun hc => absurd (isNameChar_of_isName h hc) (by decide)
  have hne : name.toList ≠ [] := by
    intro hnil
    simp [hnil, isName] at h
  have hurn : isUrn name.toList = false := by
    rw [Bool.eq_false_iff]
    exact fun hurn => hcolon (isUrn_eq_true hurn).2
  simp [parse, hne, hurn, hcolon, names, List.splitOn_eq_singleton hpoint, h]

/-- A character that starts attribute names is no digit and no sign. -/
theorem not_isDigit_of_isNameStart {c : Char} (h : isNameStart c = true) :
    c.isDigit = false ∧ c ≠ '+' ∧ c ≠ '-' := by
  refine ⟨?_, ?_, ?_⟩
  · simp only [isNameStart, Bool.or_eq_true, Text.isAlpha_iff, beq_iff_eq] at h
    apply Bool.eq_false_iff.2
    rw [ne_eq, Text.isDigit_iff]
    rcases h with (h | rfl) | rfl
    · omega
    · decide
    · decide
  · rintro rfl
    simp [isNameStart] at h
  · rintro rfl
    simp [isNameStart] at h

def LeadsName (name : String) : Prop := ∃ c cs, name.toList = c :: cs ∧ isNameStart c = true

theorem leadsName_of_isName {cs : List Char} (h : isName cs = true) :
    LeadsName (String.ofList cs) := by
  cases cs with
  | nil => simp [isName] at h
  | cons c cs =>
    simp only [isName, Bool.and_eq_true] at h
    exact ⟨c, cs, String.toList_ofList, h.1⟩

theorem leadsName_of_names {schema : Option String} {cs : List Char} {path : AttributePath}
    (h : names schema cs = .ok path) : ∀ name ∈ path.segments, LeadsName name := by
  obtain ⟨rfl, hnames⟩ := names_eq_ok h
  intro name hname
  obtain ⟨segment, hsegment, rfl⟩ := List.mem_map.1 hname
  exact leadsName_of_isName (hnames segment hsegment)

/-- Everything that a path names starts like an attribute name. -/
theorem leadsName_of_parse {text : String} {path : AttributePath} (h : parse text = .ok path) :
    (∀ schema ∈ path.schema, LeadsName schema) ∧ ∀ name ∈ path.segments, LeadsName name := by
  simp only [parse] at h
  split at h
  · simp at h
  split at h
  · rename_i hurn
    obtain ⟨⟨c, rest, htext, hc⟩, hcolon⟩ := isUrn_eq_true hurn
    obtain ⟨happend, hhead⟩ := splitSchema_append hcolon
    have hschema : LeadsName (String.ofList (splitSchema text.toList).1) := by
      cases hfirst : (splitSchema text.toList).1 with
      | nil =>
        rw [hfirst, List.nil_append] at happend
        rw [← happend, htext] at hhead
        obtain rfl : c = ':' := by simpa using hhead
        simp at hc
      | cons d ds =>
        rw [hfirst, htext] at happend
        obtain ⟨rfl, -⟩ := List.cons.inj happend
        exact ⟨c, ds, String.toList_ofList, by simp [isNameStart, hc]⟩
    split at h
    · obtain rfl := Except.ok.inj h
      exact ⟨by simpa using hschema, by simp⟩
    · simp at h
    · have hsegments := leadsName_of_names h
      obtain ⟨rfl, -⟩ := names_eq_ok h
      exact ⟨by simpa using hschema, hsegments⟩
  split at h
  · simp at h
  · have hsegments := leadsName_of_names h
    obtain ⟨rfl, -⟩ := names_eq_ok h
    exact ⟨by simp, hsegments⟩

theorem LeadsName.append {name : String} (h : LeadsName name) (rest : String) :
    LeadsName (name ++ rest) := by
  obtain ⟨c, cs, hname, hc⟩ := h
  exact ⟨c, cs ++ rest.toList, by rw [String.toList_append, hname, List.cons_append], hc⟩

/-- The text of a path starts like its schema or its first name does. -/
theorem leadsName_text_of_parse {text : String} {path : AttributePath} (h : parse text = .ok path) :
    LeadsName text := by
  obtain ⟨hschema, hsegments⟩ := leadsName_of_parse h
  have hne := segments_ne_nil_of_parse h
  obtain rfl := text_of_parse h
  obtain ⟨schema, segments⟩ := path
  cases schema with
  | some schema =>
    have hleads := hschema schema rfl
    cases segments with
    | nil => exact hleads
    | cons name names =>
      rw [text_of_segments_ne_nil schema (List.cons_ne_nil name names)]
      exact (hleads.append _).append _
  | none =>
    cases segments with
    | nil => exact absurd rfl (hne rfl)
    | cons name names =>
      have hleads := hsegments name List.mem_cons_self
      cases names with
      | nil => exact hleads
      | cons next names =>
        have htext : text ⟨none, name :: next :: names⟩ =
            name ++ "." ++ ".".intercalate (next :: names) := String.intercalate_cons_cons
        rw [htext]
        exact (hleads.append _).append _

end Scim.AttributePath
