import Scim.Proofs.Attribute.Path
import Scim.Proofs.Filter.Legality

/-!
Paths put under other paths. A text is cut behind a known schema, or else at its last colon, so a path
reads back if no known schema ends at a colon inside its own schema and its text is not a known schema
as a whole. Paths that are read are such paths, and putting one under another keeps them so: one name
by itself stays behind the schema that it was read with, and two names have a point between them, which
no known schema has behind its last colon.
-/
namespace Scim.AttributePath

variable {cs ds schema rest before after : List Char} {names segments : List String}
  {path parent : AttributePath}

def IsKnown (cs : List Char) : Prop := ∃ known ∈ knownSchemas, cs.map Char.toLower = Text.folded known

/-- What may stand in front of attribute names: a text that starts like a URN and in which no known
schema ends at a colon. -/
structure IsSchema (cs : List Char) : Prop where
  urn : isUrn (cs ++ [':']) = true
  inner : ∀ before after, cs = before ++ ':' :: after → ¬IsKnown before

structure Regular (path : AttributePath) : Prop where
  names : ∀ name ∈ path.segments, isName name.toList = true
  schema : ∀ schema ∈ path.schema, IsSchema schema.toList
  known : path.segments = [] → ∃ schema ∈ path.schema, IsKnown schema.toList
  unknown : path.segments ≠ [] → ¬IsKnown path.text.toList

/-- No known schema goes on with a colon to another one. -/
theorem IsKnown.not_prefix (h : IsKnown (before ++ ':' :: after)) : ¬IsKnown before := by
  have hapart : ∀ known ∈ knownSchemas, ∀ other ∈ knownSchemas,
      (Text.folded other ++ [':']).isPrefixOf (Text.folded known) = false := by decide +kernel
  rintro ⟨other, hother, hbefore⟩
  obtain ⟨known, hknown, hwhole⟩ := h
  have hprefix : (Text.folded other ++ [':']) <+: Text.folded known := by
    rw [← hwhole, ← hbefore, List.map_append, List.map_cons]
    exact ⟨after.map Char.toLower, by simp⟩
  have hfalse := hapart known hknown other hother
  rw [List.isPrefixOf_iff_prefix.2 hprefix] at hfalse
  exact Bool.noConfusion hfalse

theorem IsKnown.isUrn (h : IsKnown cs) : isUrn cs = true := by
  have hurn : ∀ known ∈ knownSchemas, (Text.folded known).take 4 = ['u', 'r', 'n', ':'] := by
    decide +kernel
  obtain ⟨known, hknown, hcs⟩ := h
  rw [AttributePath.isUrn, List.map_take, hcs, hurn known hknown]
  rfl

theorem mem_of_isKnown (h : IsKnown cs) : ':' ∈ cs := (isUrn_eq_true h.isUrn).2

/-- Behind the last colon of a known schema there is no point. -/
theorem not_isKnown_of_point (hcolon : ':' ∉ ds) (hpoint : '.' ∈ ds) :
    ¬IsKnown (cs ++ ':' :: ds) := by
  have hlast : ∀ known ∈ knownSchemas, '.' ∉ (splitLastColon (Text.folded known)).2 := by
    decide +kernel
  rintro ⟨known, hknown, hwhole⟩
  have hfolded : ':' ∉ ds.map Char.toLower := by
    intro hmem
    obtain ⟨c, hc, hlower⟩ := List.mem_map.1 hmem
    obtain rfl : c = ':' := Text.eq_of_toLower_eq (hlower.trans (by decide)) (by decide)
    exact hcolon hc
  have hsplit := splitLastColon_append (cs.map Char.toLower) (ds.map Char.toLower) hfolded
  have htext : cs.map Char.toLower ++ ':' :: ds.map Char.toLower = Text.folded known := by
    rw [← hwhole, List.map_append, List.map_cons]
    rfl
  rw [htext] at hsplit
  apply hlast known hknown
  rw [hsplit]
  exact List.mem_cons_of_mem _ (List.mem_map_of_mem (f := Char.toLower) hpoint)

theorem isUrn_append (h : isUrn cs = true) (ds : List Char) : isUrn (cs ++ ds) = true := by
  rcases cs with _ | ⟨a, _ | ⟨b, _ | ⟨c, _ | ⟨d, rest⟩⟩⟩⟩
  · simp [isUrn] at h
  · simp [isUrn] at h
  · simp [isUrn] at h
  · simp [isUrn] at h
  · exact h

/-- The start of a URN ends with its first colon. -/
theorem isUrn_colon (h : isUrn (cs ++ ':' :: ds) = true) : isUrn (cs ++ [':']) = true := by
  rcases cs with _ | ⟨a, _ | ⟨b, _ | ⟨c, rest⟩⟩⟩
  · simp [isUrn] at h
  · simp [isUrn] at h
  · simp [isUrn] at h
  · cases rest with
    | nil => exact h
    | cons d rest => exact h

theorem isSchema_of_isKnown (h : IsKnown cs) : IsSchema cs := by
  constructor
  · exact isUrn_append h.isUrn [':']
  · rintro before after rfl
    exact h.not_prefix

theorem splitKnown_append {known : String} (hschema : schema.map Char.toLower = Text.folded known)
    (hrest : rest.head?.getD ':' = ':') : splitKnown (schema ++ rest) known = some (schema, rest) := by
  have hlength : known.toList.length = schema.length := by
    have hfolded := congrArg List.length hschema
    simpa [Text.folded] using hfolded.symm
  simp only [splitKnown, hlength, List.take_left', List.drop_left', hschema, hrest, and_self, if_true]

/-- Of two known schemas in front of one text neither goes on behind the other. -/
theorem IsKnown.append_eq_nil (h : IsKnown (schema ++ cs)) (hschema : IsKnown schema)
    (hrest : (cs ++ ds).head?.getD ':' = ':') : cs = [] := by
  cases cs with
  | nil => rfl
  | cons c cs =>
    obtain rfl : c = ':' := by simpa using hrest
    exact absurd hschema h.not_prefix

/-- A known schema is split off as a whole. -/
theorem splitSchema_of_isKnown (hschema : IsKnown schema) (hrest : rest.head?.getD ':' = ':') :
    splitSchema (schema ++ rest) = (schema, rest) := by
  obtain ⟨known, hknown, hfolded⟩ := id hschema
  cases hfound : knownSchemas.findSome? (splitKnown (schema ++ rest)) with
  | none =>
    have hnone := List.findSome?_eq_none_iff.1 hfound known hknown
    rw [splitKnown_append hfolded hrest] at hnone
    simp at hnone
  | some split =>
    obtain ⟨first, second⟩ := split
    obtain ⟨other, hother, hsplit⟩ := List.exists_of_findSome?_eq_some hfound
    obtain ⟨happend, hfirst, hsecond⟩ := splitKnown_eq_some hsplit
    have hfirst : IsKnown first := ⟨other, hother, hfirst⟩
    rw [splitSchema, hfound, Option.getD_some]
    rcases List.append_eq_append_iff.1 happend with ⟨more, rfl, rfl⟩ | ⟨more, rfl, rfl⟩
    · rw [hfirst.append_eq_nil hschema hrest, List.append_nil, List.nil_append]
    · rw [hschema.append_eq_nil hfirst hsecond, List.append_nil, List.nil_append]

/-- A known schema by itself is cut at its end. -/
theorem splitSchema_self (h : IsKnown cs) : splitSchema cs = (cs, []) := by
  have hcut : splitSchema (cs ++ []) = (cs, []) := splitSchema_of_isKnown h rfl
  rwa [List.append_nil] at hcut

theorem splitSchema_of_not_isKnown (h : ∀ schema rest, cs = schema ++ rest →
    rest.head?.getD ':' = ':' → ¬IsKnown schema) : splitSchema cs = splitLastColon cs := by
  have hnone : knownSchemas.findSome? (splitKnown cs) = none := by
    apply List.findSome?_eq_none_iff.2
    intro known hknown
    cases hsplit : splitKnown cs known with
    | none => rfl
    | some split =>
      obtain ⟨happend, hfolded, hrest⟩ := splitKnown_eq_some hsplit
      exact absurd ⟨known, hknown, hfolded⟩ (h _ _ happend hrest)
  rw [splitSchema, hnone, Option.getD_none]

/-- A schema is cut from the names behind it, unless schema and names are a known schema together. -/
theorem splitSchema_append_colon (hschema : IsSchema schema) (hcolon : ':' ∉ ds)
    (hwhole : ¬IsKnown (schema ++ ':' :: ds)) :
    splitSchema (schema ++ ':' :: ds) = (schema, ':' :: ds) := by
  by_cases hknown : IsKnown schema
  · exact splitSchema_of_isKnown hknown rfl
  · have hnone : ∀ first second, schema ++ ':' :: ds = first ++ second →
        second.head?.getD ':' = ':' → ¬IsKnown first := by
      intro first second happend hsecond hfirst
      rcases List.append_eq_append_iff.1 happend with ⟨more, rfl, hds⟩ | ⟨more, rfl, hds⟩
      · -- the cut is behind the colon, so it is at the end
        cases more with
        | nil => exact hknown (by simpa using hfirst)
        | cons c more =>
          obtain ⟨rfl, rfl⟩ := List.cons.inj hds
          cases second with
          | nil => exact hwhole (by simpa using hfirst)
          | cons d second =>
            obtain rfl : d = ':' := by simpa using hsecond
            simp at hcolon
      · -- the cut is at a colon of the schema
        cases more with
        | nil => exact hknown (by simpa using hfirst)
        | cons c more =>
          obtain rfl : c = ':' := by simpa [hds] using hsecond
          exact hschema.inner first more rfl hfirst
    rw [splitSchema_of_not_isKnown hnone, splitLastColon_append schema ds hcolon]

/-- Names joined by points are read as these names. -/
theorem names_intercalate (schema : Option String) (hne : segments ≠ [])
    (hnames : ∀ name ∈ segments, isName name.toList = true) :
    AttributePath.names schema (".".intercalate segments).toList = .ok ⟨schema, segments⟩ := by
  have hpoint : ∀ name ∈ segments.map String.toList, '.' ∉ name := by
    intro name hname
    obtain ⟨segment, hsegment, rfl⟩ := List.mem_map.1 hname
    exact fun hc => absurd (isNameChar_of_isName (hnames segment hsegment) hc) (by decide)
  have hsplit : (".".intercalate segments).toList.splitOn '.' = segments.map String.toList := by
    rw [String.toList_intercalate]
    exact List.splitOn_intercalate '.' hpoint (by simpa using hne)
  have hfind : (segments.map String.toList).find? (fun name => !isName name) = none := by
    simpa using hnames
  rw [AttributePath.names, hsplit, hfind]
  simp

theorem mem_of_mem_intercalate {c : Char} (h : c ∈ (".".intercalate segments).toList) :
    c = '.' ∨ ∃ name ∈ segments, c ∈ name.toList := by
  induction segments with
  | nil => simp at h
  | cons name segments ih =>
    cases segments with
    | nil => exact .inr ⟨name, List.mem_cons_self, by simpa using h⟩
    | cons next segments =>
      rw [String.intercalate_cons_cons, String.toList_append, String.toList_append] at h
      rcases List.mem_append.1 h with h | h
      · rcases List.mem_append.1 h with h | h
        · exact .inr ⟨name, List.mem_cons_self, h⟩
        · exact .inl (by simpa using h)
      · rcases ih h with hpoint | ⟨other, hother, h⟩
        · exact .inl hpoint
        · exact .inr ⟨other, List.mem_cons_of_mem name hother, h⟩

theorem colon_not_mem_intercalate (hnames : ∀ name ∈ segments, isName name.toList = true) :
    ':' ∉ (".".intercalate segments).toList := by
  intro hcolon
  rcases mem_of_mem_intercalate hcolon with hpoint | ⟨name, hname, hcolon⟩
  · exact absurd hpoint (by decide)
  · exact absurd (isNameChar_of_isName (hnames name hname) hcolon) (by decide)

theorem point_mem_intercalate (name next : String) (segments : List String) :
    '.' ∈ (".".intercalate (name :: next :: segments)).toList := by
  rw [String.intercalate_cons_cons, String.toList_append, String.toList_append]
  exact List.mem_append_left _ (List.mem_append_right _ (by simp))

theorem toList_text_of_ne_nil (schema : String) (hne : segments ≠ []) :
    (text ⟨some schema, segments⟩).toList =
      schema.toList ++ ':' :: (".".intercalate segments).toList := by
  rw [text_of_segments_ne_nil schema hne, String.toList_append, String.toList_append,
    List.append_assoc]
  rfl

theorem intercalate_ne_nil (hne : segments ≠ [])
    (hnames : ∀ name ∈ segments, isName name.toList = true) :
    (".".intercalate segments).toList ≠ [] := by
  intro hnil
  have hread := names_intercalate none hne hnames
  rw [hnil] at hread
  simp [AttributePath.names, isName] at hread

theorem parse_intercalate (hne : segments ≠ [])
    (hnames : ∀ name ∈ segments, isName name.toList = true) :
    parse (".".intercalate segments) = .ok ⟨none, segments⟩ := by
  have hcolon := colon_not_mem_intercalate hnames
  have hurn : isUrn (".".intercalate segments).toList = false := by
    rw [Bool.eq_false_iff]
    exact fun hurn => hcolon (isUrn_eq_true hurn).2
  simp only [parse, intercalate_ne_nil hne hnames, hurn, hcolon, names_intercalate none hne hnames,
    if_false, Bool.false_eq_true]

theorem parse_of_isKnown {schema : String} (h : IsKnown schema.toList) :
    parse schema = .ok ⟨some schema, []⟩ := by
  have hempty : schema.toList ≠ [] := List.ne_nil_of_mem (mem_of_isKnown h)
  simp only [parse, hempty, h.isUrn, splitSchema_self h, if_false, if_true, String.ofList_toList]

/-- A schema, a colon and names are read as a qualified path, unless the whole is a known schema. -/
theorem parse_text_of_isSchema {schema : String} (hschema : IsSchema schema.toList)
    (hne : segments ≠ []) (hnames : ∀ name ∈ segments, isName name.toList = true)
    (hwhole : ¬IsKnown (text ⟨some schema, segments⟩).toList) :
    parse (text ⟨some schema, segments⟩) = .ok ⟨some schema, segments⟩ := by
  have htext := toList_text_of_ne_nil schema hne
  rw [htext] at hwhole
  have hsplit := splitSchema_append_colon hschema (colon_not_mem_intercalate hnames) hwhole
  have hurn : isUrn (schema.toList ++ ':' :: (".".intercalate segments).toList) = true := by
    have happend := isUrn_append hschema.urn (".".intercalate segments).toList
    rwa [List.append_assoc] at happend
  have hempty : schema.toList ++ ':' :: (".".intercalate segments).toList ≠ [] := by simp
  obtain ⟨c, cs, hrest⟩ := List.exists_cons_of_ne_nil (intercalate_ne_nil hne hnames)
  have hread := names_intercalate (some schema) hne hnames
  rw [hrest] at hsplit hread hurn hempty htext
  simp only [parse, htext, hempty, hurn, hsplit, hread, if_false, if_true, String.ofList_toList]

/-- The text of a path is a known schema only where the path has no names. -/
theorem not_isKnown_of_isKnown_schema {schema : String} (hschema : IsKnown schema.toList)
    (hne : segments ≠ []) : ¬IsKnown (text ⟨some schema, segments⟩).toList := by
  rw [toList_text_of_ne_nil schema hne]
  intro hwhole
  exact hwhole.not_prefix hschema

/-- A regular path is read from its text. -/
theorem Regular.parse_text (h : path.Regular) : parse path.text = .ok path := by
  obtain ⟨schema, segments⟩ := path
  obtain ⟨hnames, hschema, hknown, hunknown⟩ := h
  by_cases hne : segments = []
  · obtain ⟨known, hmem, hisKnown⟩ := hknown hne
    obtain rfl : schema = some known := hmem
    obtain rfl : segments = [] := hne
    exact parse_of_isKnown hisKnown
  · cases schema with
    | none => exact parse_intercalate hne hnames
    | some schema => exact parse_text_of_isSchema (hschema schema rfl) hne hnames (hunknown hne)

theorem isName_of_names {schema : Option String} (h : AttributePath.names schema cs = .ok path) :
    ∀ name ∈ path.segments, isName name.toList = true := by
  obtain ⟨rfl, hnames⟩ := names_eq_ok h
  intro name hname
  obtain ⟨segment, hsegment, rfl⟩ := List.mem_map.1 hname
  rw [String.toList_ofList]
  exact hnames segment hsegment

/-- What is cut from a text is a schema, and all of the text is a known schema only if nothing is left
behind the cut. -/
theorem isSchema_splitSchema (h : isUrn cs = true) (hsecond : (splitSchema cs).2 ≠ []) :
    IsSchema (splitSchema cs).1 ∧ ¬IsKnown cs := by
  obtain ⟨happend, hhead⟩ := splitSchema_append (isUrn_eq_true h).2
  obtain ⟨c, ds, hrest⟩ := List.exists_cons_of_ne_nil hsecond
  rw [hrest] at happend hhead
  obtain rfl : c = ':' := by simpa using hhead
  refine ⟨⟨?_, ?_⟩, ?_⟩
  · rw [happend] at h
    exact isUrn_colon h
  · intro before after hfirst hbefore
    have hcut : splitSchema cs = (before, ':' :: (after ++ ':' :: ds)) := by
      rw [happend, hfirst, List.append_assoc]
      exact splitSchema_of_isKnown hbefore rfl
    rw [hcut] at hfirst
    simp at hfirst
  · intro hwhole
    rw [splitSchema_self hwhole] at hrest
    simp at hrest

/-- Only a known schema has nothing behind it. -/
theorem isKnown_of_splitSchema (h : isUrn cs = true) (hrest : (splitSchema cs).2 = []) :
    IsKnown cs := by
  unfold splitSchema at hrest
  cases hfound : knownSchemas.findSome? (splitKnown cs) with
  | some split =>
    obtain ⟨known, hknown, hsplit⟩ := List.exists_of_findSome?_eq_some hfound
    obtain ⟨happend, hfolded, -⟩ := splitKnown_eq_some hsplit
    rw [hfound, Option.getD_some] at hrest
    rw [hrest, List.append_nil] at happend
    exact ⟨known, hknown, happend ▸ hfolded⟩
  | none =>
    obtain ⟨as, bs, rfl, hbs⟩ := Text.exists_last (isUrn_eq_true h).2
    rw [hfound, Option.getD_none, splitLastColon_append as bs hbs] at hrest
    simp at hrest

/-- A path that has been read is determined by its text. -/
theorem regular_of_parse {text : String} (h : parse text = .ok path) : path.Regular := by
  have htext := text_of_parse h
  simp only [parse] at h
  split at h
  · simp at h
  split at h
  · rename_i hurn
    split at h
    · rename_i hrest
      obtain rfl := Except.ok.inj h
      have hknown := isKnown_of_splitSchema hurn hrest
      rw [← htext] at hknown
      constructor
      · simp
      · intro schema hschema
        obtain rfl := Option.some.inj hschema
        exact isSchema_of_isKnown hknown
      · exact fun _ => ⟨_, rfl, hknown⟩
      · simp
    · simp at h
    · rename_i c cs _ hrest
      obtain ⟨hschema, hwhole⟩ := isSchema_splitSchema hurn (by rw [hrest]; simp)
      have hnames := isName_of_names h
      have hne := segments_ne_nil_of_names h
      obtain ⟨rfl, -⟩ := names_eq_ok h
      constructor
      · exact hnames
      · simpa using hschema
      · exact fun hnil => absurd hnil hne
      · rw [htext]
        exact fun _ => hwhole
  split at h
  · simp at h
  · rename_i hcolon
    have hnames := isName_of_names h
    have hne := segments_ne_nil_of_names h
    obtain ⟨rfl, -⟩ := names_eq_ok h
    constructor
    · exact hnames
    · simp
    · exact fun hnil => absurd hnil hne
    · rw [htext]
      exact fun _ hknown => hcolon (mem_of_isKnown hknown)

/-- The text of a path with at least two names is no known schema. -/
theorem not_isKnown_of_two_names {schema : Option String} {name next : String}
    (hnames : ∀ other ∈ name :: next :: segments, isName other.toList = true) :
    ¬IsKnown (text ⟨schema, name :: next :: segments⟩).toList := by
  have hcolon := colon_not_mem_intercalate hnames
  cases schema with
  | none => exact fun hknown => hcolon (mem_of_isKnown hknown)
  | some schema =>
    rw [toList_text_of_ne_nil schema (List.cons_ne_nil name (next :: segments))]
    exact not_isKnown_of_point hcolon (point_mem_intercalate name next segments)

/-- A path under another one is regular as they are. A name that stays alone has the schema that it
was read with, or a known one of the parent. -/
theorem Regular.under (h : path.Regular) (hparent : parent.Regular) : (path.under parent).Regular := by
  obtain ⟨schema, segments⟩ := path
  obtain ⟨outer, names⟩ := parent
  have hnames : ∀ name ∈ names ++ segments, isName name.toList = true := by
    intro name hname
    rcases List.mem_append.1 hname with hname | hname
    · exact hparent.names name hname
    · exact h.names name hname
  constructor
  · exact hnames
  · intro other hother
    cases outer with
    | none => exact h.schema other hother
    | some outer => exact hparent.schema other hother
  · intro hnil
    obtain ⟨rfl, rfl⟩ := List.append_eq_nil_iff.1 hnil
    obtain ⟨known, rfl, hknown⟩ := hparent.known rfl
    exact ⟨known, rfl, hknown⟩
  · intro hne
    match names, segments with
    | [], [] => exact absurd rfl hne
    | [], name :: segments =>
      obtain ⟨known, rfl, hknown⟩ := hparent.known rfl
      exact not_isKnown_of_isKnown_schema hknown (List.cons_ne_nil name segments)
    | [name], [] =>
      obtain ⟨known, rfl, hknown⟩ := h.known rfl
      cases outer with
      | none => exact not_isKnown_of_isKnown_schema hknown (List.cons_ne_nil name [])
      | some outer => exact hparent.unknown (List.cons_ne_nil name [])
    | name :: next :: names, segments => exact not_isKnown_of_two_names hnames
    | [name], next :: segments => exact not_isKnown_of_two_names hnames

/-- The paths that come from texts by putting read paths under each other. -/
inductive Composed : AttributePath → Prop where
  | read {text : String} {path : AttributePath} (h : parse text = .ok path) : Composed path
  | under {path parent : AttributePath} (hpath : Composed path) (hparent : Composed parent) :
      Composed (path.under parent)

/-- So is a path that is put together from such paths. -/
theorem Composed.regular (h : Composed path) : path.Regular := by
  induction h with
  | read h => exact regular_of_parse h
  | under _ _ hpath hparent => exact hpath.under hparent

/-- Texts and paths stand for each other: a text that is read as a path is the text of that path, and
a path made of read paths is read from its own text. It does not matter in which order paths are put
under each other. -/
theorem parse_text_of_composed :
    (∀ text path, parse text = .ok path → path.text = text) ∧
    (∀ path, Composed path → parse path.text = .ok path) ∧
    ∀ path parent outer : AttributePath,
      (path.under parent).under outer = path.under (parent.under outer) := by
  refine ⟨fun text path h => text_of_parse h, fun path h => h.regular.parse_text, ?_⟩
  exact fun path parent outer => under_under path parent outer

/-- Behind the schema that `User` makes a known one, a name is put under `User`. -/
theorem parse_text_of_composed_sample :
    parse "urn:ietf:params:scim:schemas:core:2.0:name" =
        .ok ⟨some "urn:ietf:params:scim:schemas:core:2.0", ["name"]⟩ ∧
      parse "User" = .ok ⟨none, ["User"]⟩ ∧ text ⟨none, ["User"]⟩ = "User" ∧
      text ⟨some "urn:ietf:params:scim:schemas:core:2.0", ["User", "name"]⟩ =
        "urn:ietf:params:scim:schemas:core:2.0:User.name" ∧
      parse "urn:ietf:params:scim:schemas:core:2.0:User.name" =
        .ok ⟨some "urn:ietf:params:scim:schemas:core:2.0", ["User", "name"]⟩ := by
  have hname : parse "urn:ietf:params:scim:schemas:core:2.0:name" =
      .ok ⟨some "urn:ietf:params:scim:schemas:core:2.0", ["name"]⟩ := rfl
  have huser : parse "User" = .ok ⟨none, ["User"]⟩ := rfl
  have htext : text ⟨some "urn:ietf:params:scim:schemas:core:2.0", ["User", "name"]⟩ =
      "urn:ietf:params:scim:schemas:core:2.0:User.name" := by decide +kernel
  have hparse := parse_text_of_composed.2.1 _ (.under (.read hname) (.read huser))
  refine ⟨hname, huser, parse_text_of_composed.1 _ _ huser, htext, ?_⟩
  rw [← htext]
  exact hparse

end Scim.AttributePath
