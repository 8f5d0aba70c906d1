import Scim.Proofs.Patch.Replacement

/-!
Replacements made again. An edit that sets a value succeeds only where objects stand on the whole way
to it, and afterwards its names lead to the new value. So when the operation is converted once more,
for the changed document, every place it has set is there and gets the value that it has. By a filter
other elements may be selected than before, but only from those that were set.
-/
namespace Scim

open AttributePath

namespace Edit

variable {config : Config} {document result value : Json} {rest names : List String}
  {name : String}

theorem isObject_of_add (hname : LeadsName name)
    (h : add (name :: rest) value document = .ok result) : document.isObject = true := by
  cases document with
  | obj members => rfl
  | arr items =>
    -- a name is neither an index nor the end of an array
    have hend : name ≠ "-" := by
      rintro rfl
      obtain ⟨c, cs, hcs, hc⟩ := hname
      obtain ⟨rfl, -⟩ := List.cons.inj (hcs.symm.trans (by decide : "-".toList = ['-']))
      simp [isNameStart] at hc
    cases rest with
    | nil => simp [add, addBelow, addChild, hend, Pointer.index_of_leadsName hname, Except.map] at h
    | cons next rest =>
      obtain ⟨position, hposition, -⟩ := Except.bind_eq_ok_iff.1 h
      simp [Pointer.index_of_leadsName hname] at hposition
  | _ => cases rest <;> simp [add, addBelow, addChild] at h

/-- What names lead to can be set by an addition only if objects stand on the way. -/
theorem onWay_of_add (hnames : ∀ name ∈ names, LeadsName name)
    (h : add (config.tokens names (some document)) value document = .ok result) :
    config.OnWay (·.isObject = true) names document := by
  induction names generalizing document result with
  | nil => exact Config.onWay_nil _ document
  | cons name names ih =>
    obtain ⟨key, rest, htokens, hkey⟩ := config.exists_tokens_cons name names (some document)
    have hname := (hnames name List.mem_cons_self).of_sameFolded hkey
    have hobject := isObject_of_add hname (htokens ▸ h)
    obtain ⟨members, rfl⟩ := Json.isObject_eq_true hobject
    rw [Config.onWay_cons_iff]
    refine ⟨hobject, ?_⟩
    intro child hchild
    by_cases hnil : names = []
    · subst hnil
      exact Config.onWay_nil _ child
    · rw [Config.tokens_obj, add_cons_obj (Config.tokens_ne_nil hnil _), Config.find?_spelled,
        hchild, Option.getD_some] at h
      obtain ⟨changed, hchanged, -⟩ := Except.map_eq_ok_iff.1 h
      exact ih (fun other hother => hnames other (List.mem_cons_of_mem name hother)) hchanged

end Edit

namespace Patch

variable {config : Config} {document after value item : Json} {items : List Json} {text : String}
  {path : ValuePath} {tokens names : List String} {index : Nat}

def placeEdit (config : Config) (names : List String) (value document : Json) : Edit :=
  ⟨if (config.follow names document).isSome then .replace else .add,
    Pointer.text (config.tokens names (some document)), some value⟩

/-- An assignment by one edit succeeds exactly where only objects are on the way. -/
theorem apply_placeEdit_eq_ok_iff (hnames : ∀ name ∈ names, LeadsName name) (hne : names ≠ []) :
    (placeEdit config names value document).apply document = .ok after ↔
      config.OnWay (·.isObject = true) names document ∧
        after = config.assign value names document := by
  have hblank : config.tokens names (some document) ≠ [""] := Config.tokens_ne_blank hnames hne _
  have hparse := Pointer.parse_text hblank
  cases hfollow : config.follow names document with
  | some old =>
    simp only [placeEdit, hfollow, Option.isSome_some, if_true, Edit.apply, hparse,
      Edit.located_eq_ok_iff, Edit.replace_tokens hfollow, Except.ok.injEq]
    exact ⟨fun h => ⟨Config.onWay_of_follow hfollow, h.symm⟩, fun h => h.2.symm⟩
  | none =>
    simp only [placeEdit, hfollow, Option.isSome_none, Bool.false_eq_true, if_false, Edit.apply,
      hparse, Edit.located_eq_ok_iff]
    constructor
    · intro h
      have hway := Edit.onWay_of_add hnames h
      rw [Edit.add_tokens hway hne] at h
      exact ⟨hway, (Except.ok.inj h).symm⟩
    · rintro ⟨hway, rfl⟩
      exact Edit.add_tokens hway hne value

theorem onWay_of_apply_elementEdit (hnames : ∀ name ∈ names, LeadsName name)
    (hreach : document.reach tokens = some (.arr items)) (hitem : items[index]? = some item)
    (h : (elementEdit config tokens names value index item).apply document = .ok after) :
    config.OnWay (·.isObject = true) names item := by
  cases hfollow : config.follow names item with
  | some old => exact Config.onWay_of_follow hfollow
  | none =>
    have hne : names ≠ [] := by
      rintro rfl
      simp [Config.follow] at hfollow
    have hparse := Pointer.parse_text
      (ne_blank_of_indexToken tokens (config.tokens names (some item)) index)
    simp only [elementEdit, hfollow, Option.isSome_none, Bool.false_eq_true, if_false, Edit.apply,
      hparse, Edit.located_eq_ok_iff] at h
    rw [Edit.add_append hreach (List.cons_ne_nil _ _),
      Edit.add_index (Config.tokens_ne_nil hne _) hitem, Except.map_map] at h
    obtain ⟨new, hnew, -⟩ := Except.map_eq_ok_iff.1 h
    exact Edit.onWay_of_add hnames hnew

/-- If the edits of the elements that pass a test succeed, objects stand on the way in all of these. -/
theorem onWay_of_applyAll_elementEdits {test : Json → Bool} {rest : List Json}
    (hnames : ∀ name ∈ names, LeadsName name) (done : List Json)
    (hreach : document.reach tokens = some (.arr (done ++ rest)))
    (happly : Edit.applyAll (((rest.zipIdx done.length).filter fun element => test element.1).map
      fun element => elementEdit config tokens names value element.2 element.1) document =
        .ok after) :
    ∀ item ∈ rest, test item = true → config.OnWay (·.isObject = true) names item := by
  induction rest generalizing done document with
  | nil => simp
  | cons first rest ih =>
    have hfirst : (done ++ first :: rest)[done.length]? = some first := by simp
    rw [List.zipIdx_cons, List.filter_cons] at happly
    rw [List.forall_mem_cons]
    by_cases htest : test first = true
    · rw [if_pos htest, List.map_cons] at happly
      obtain ⟨next, hnext, happly⟩ := Except.foldlM_cons_eq_ok_iff.1 happly
      have hway := onWay_of_apply_elementEdit hnames hreach hfirst hnext
      obtain rfl := Except.ok.inj ((apply_elementEdit hreach hfirst hway).symm.trans hnext)
      have hset : (done ++ first :: rest).set done.length (config.assign value names first) =
          done ++ [config.assign value names first] ++ rest := by simp
      have hreached := Json.reach_put_self hreach
        (.arr ((done ++ first :: rest).set done.length (config.assign value names first)))
      rw [hset] at hreached happly
      refine ⟨fun _ => hway, ih _ hreached ?_⟩
      rw [List.length_append, List.length_singleton]
      exact happly
    · rw [if_neg htest] at happly
      have hreached : document.reach tokens = some (.arr (done ++ [first] ++ rest)) := by
        simpa using hreach
      refine ⟨fun h => absurd h htest, ih _ hreached ?_⟩
      rw [List.length_append, List.length_singleton]
      exact happly

/-- Setting a value in the elements that pass a test changes nothing where it was set before. -/
theorem map_assign_map_assign (test : Json → Bool) (value : Json) (names : List String)
    (items : List Json) :
    (items.map fun item => if test item then config.assign value names item else item).map
        (fun item => if test item then config.assign value names item else item) =
      items.map fun item => if test item then config.assign value names item else item := by
  rw [List.map_map]
  refine List.map_congr_left fun item _ => ?_
  by_cases htest : test item = true
  · simp only [Function.comp_apply, htest, if_true, config.assign_assign, ite_self]
  · simp [htest]

/-- Replacing the value of a plain path is a single assignment. -/
theorem convert_plain_replacement {path : AttributePath}
    (hparse : PatchPath.parse text = .ok (.plain path)) (hne : config.names path ≠ [])
    (value document : Json) : convert config document [⟨.replace, some text, some value⟩] =
      .ok [placeEdit config (config.names path) value document] := by
  have haction : actionOf ⟨.replace, some text, some value⟩ = .ok (.replace value) := rfl
  exact convert_plain config document haction rfl hparse hne

theorem exists_value_of_convert {found : Option Json} {edits : List Edit}
    (hconvert : convert config document [⟨.replace, some text, found⟩] = .ok edits) :
    ∃ value, found = some value := by
  cases found with
  | some value => exact ⟨value, rfl⟩
  | none =>
    have herror : convert config document [⟨.replace, some text, none⟩] =
        .error (.missingValue .replace) := rfl
    simp [herror] at hconvert

theorem check_of_convert {found : Option Json} {edits : List Edit}
    (hparse : PatchPath.parse text = .ok (.filtered path))
    (hconvert : convert config document [⟨.replace, some text, found⟩] = .ok edits) :
    path.filter.check = .ok () := by
  obtain ⟨steps, hsteps, -⟩ := Except.map_eq_ok_iff.1 hconvert
  obtain ⟨own, hown, -⟩ := Except.bind_eq_ok_iff.1 hsteps
  rw [operationSteps_of_path rfl (PatchPath.ne_empty_of_parse hparse)] at hown
  obtain ⟨action, -, hown⟩ := Except.bind_eq_ok_iff.1 hown
  obtain ⟨other, hother, hown⟩ := Except.bind_eq_ok_iff.1 hown
  obtain rfl := Except.ok.inj (hparse.symm.trans hother)
  exact (filteredSteps_eq_ok_iff.1 hown).1

/-- Setting a value again that was set by its names. -/
theorem exists_convert_plain_again {path : AttributePath} {edits : List Edit}
    (hparse : PatchPath.parse text = .ok (.plain path)) (hne : config.names path ≠ [])
    (hconvert : convert config document [⟨.replace, some text, some value⟩] = .ok edits)
    (happly : Edit.applyAll edits document = .ok after) :
    ∃ again, convert config after [⟨.replace, some text, some value⟩] = .ok again ∧
      Edit.applyAll again after = .ok after := by
  obtain ⟨⟨target, hpath⟩, -⟩ := PatchPath.parse_eq_ok hparse
  have hnames : ∀ name ∈ config.names path, LeadsName name :=
    fun name hname => Config.leadsName_of_mem_names hpath hname
  rw [convert_plain_replacement hparse hne] at hconvert
  obtain rfl := Except.ok.inj hconvert
  rw [Edit.applyAll_singleton] at happly
  obtain ⟨-, rfl⟩ := (apply_placeEdit_eq_ok_iff hnames hne).1 happly
  refine ⟨_, convert_plain_replacement hparse hne _ _, ?_⟩
  rw [Edit.applyAll_singleton, apply_placeEdit_eq_ok_iff hnames hne]
  have hfollow := config.follow_assign value (config.names path) document
  exact ⟨Config.onWay_of_follow hfollow, (config.assign_assign value _ document).symm⟩

/-- Setting a value again in the elements of an array that a filter selects. -/
theorem exists_convert_elements_again {edits : List Edit}
    (hparse : PatchPath.parse text = .ok (.filtered path)) (hcheck : path.filter.check = .ok ())
    (hitems : config.follow (config.names path.target) document = some (.arr items))
    (hconvert : convert config document [⟨.replace, some text, some value⟩] = .ok edits)
    (happly : Edit.applyAll edits document = .ok after) :
    ∃ again, convert config after [⟨.replace, some text, some value⟩] = .ok again ∧
      Edit.applyAll again after = .ok after := by
  have hinner : ∀ name ∈ path.inner config, LeadsName name := by
    intro name hname
    obtain ⟨-, hsub⟩ := PatchPath.parse_eq_ok hparse
    obtain ⟨sub, hmem, hname⟩ := List.mem_flatMap.1 hname
    obtain ⟨-, subText, hsubText⟩ := hsub sub (Option.mem_toList.1 hmem)
    exact Config.leadsName_of_mem_names hsubText hname
  have hreach := (config.reach_pointer path.target document).trans hitems
  rw [convert_filtered_replacement config hparse hcheck, hitems,
    assemble_selected_replace hparse] at hconvert
  obtain rfl := Except.ok.inj hconvert
  have hway := onWay_of_applyAll_elementEdits hinner [] hreach happly
  obtain rfl := Except.ok.inj ((applyAll_elementEdits value hway [] hreach).symm.trans happly)
  -- `afterItems` are the elements after the first run, which the second run starts from
  generalize hafter : ([] ++ items.map fun item => if config.holds path.filter item then
    config.assign value (path.inner config) item else item) = afterItems
  have hagain : config.follow (config.names path.target)
      (Json.put (config.pointer document path.target) (.arr afterItems) document) =
        some (.arr afterItems) := Config.follow_put hitems _
  have hreachAgain := (config.reach_pointer path.target _).trans hagain
  have hwayAgain : ∀ item ∈ afterItems, config.holds path.filter item = true →
      config.OnWay (·.isObject = true) (path.inner config) item := by
    rw [← hafter]
    rintro item hitem hholds
    obtain ⟨before, hbefore, rfl⟩ := List.mem_map.1 hitem
    by_cases hset : config.holds path.filter before = true
    · rw [if_pos hset]
      exact Config.onWay_of_follow (config.follow_assign value _ before)
    · rw [if_neg hset] at hholds
      exact absurd hholds hset
  have happlyAgain := applyAll_elementEdits value hwayAgain [] hreachAgain
  refine ⟨_, convert_filtered_replacement config hparse hcheck _ _, ?_⟩
  rw [hagain, assemble_selected_replace hparse]
  refine happlyAgain.trans ?_
  have hmap : ([] ++ afterItems.map fun item => if config.holds path.filter item then
      config.assign value (path.inner config) item else item) = afterItems := by
    rw [← hafter]
    exact map_assign_map_assign _ value _ items
  rw [hmap, Json.put_of_reach hreachAgain]

/-- The values that a filter selects are elements or a single object. -/
theorem selected_eq_nil (filter : Expression) {found : Option Json}
    (harray : ∀ items, found ≠ some (.arr items)) (hobject : ∀ members, found ≠ some (.obj members)) :
    selected config filter found = [] := by
  unfold selected
  split
  · exact absurd rfl (harray _)
  · exact absurd rfl (hobject _)
  · rfl

end Patch

/-- A path that leads to some member, or a path with a filter that is not about a single object. -/
def PatchPath.Repeatable (config : Config) (document : Json) : PatchPath → Prop
  | plain path => ¬(path.segments = [] ∧ ∃ schema ∈ path.schema, config.isCore schema = true)
  | filtered path => ∀ members,
    Pointer.find? (Pointer.text (config.pointer document path.target)) document ≠ some (.obj members)

namespace Patch

variable {config : Config} {document after : Json} {text : String} {operation : Operation}
  {path : PatchPath} {edits : List Edit}

theorem names_ne_nil_of_repeatable {path : AttributePath}
    (hparse : PatchPath.parse text = .ok (.plain path))
    (h : (PatchPath.plain path).Repeatable config document) : config.names path ≠ [] := by
  intro hnames
  obtain ⟨hschema, hsegments⟩ := List.append_eq_nil_iff.1 hnames
  obtain ⟨⟨target, hpath⟩, -⟩ := PatchPath.parse_eq_ok hparse
  obtain ⟨schema, hsome⟩ : ∃ schema, path.schema = some schema :=
    Option.ne_none_iff_exists'.1 fun hnone => segments_ne_nil_of_parse hpath hnone hsegments
  have hcore : config.isCore schema = true := by simpa [hsome] using hschema
  exact h ⟨hsegments, schema, hsome, hcore⟩

/-- A replacement that was made leaves the document as it is when it is converted and made again. -/
theorem exists_convert_again (hop : operation.op = .replace) (hpath : operation.path = some text)
    (hparse : PatchPath.parse text = .ok path) (hrepeatable : path.Repeatable config document)
    (hconvert : convert config document [operation] = .ok edits)
    (happly : Edit.applyAll edits document = .ok after) :
    ∃ again, convert config after [operation] = .ok again ∧ Edit.applyAll again after = .ok after := by
  obtain ⟨op, opPath, found⟩ := operation
  obtain rfl : op = .replace := hop
  obtain rfl : opPath = some text := hpath
  obtain ⟨value, rfl⟩ := exists_value_of_convert hconvert
  cases path with
  | plain path =>
    exact exists_convert_plain_again hparse (names_ne_nil_of_repeatable hparse hrepeatable) hconvert
      happly
  | filtered path =>
    have hcheck := check_of_convert hparse hconvert
    by_cases harray : ∃ items, config.follow (config.names path.target) document = some (.arr items)
    · obtain ⟨items, hitems⟩ := harray
      exact exists_convert_elements_again hparse hcheck hitems hconvert happly
    · -- nothing is selected, so the document stays as it is and nothing is selected again
      obtain ⟨⟨target, htarget⟩, -⟩ := PatchPath.parse_eq_ok hparse
      have hobject : ∀ members,
          config.follow (config.names path.target) document ≠ some (.obj members) := by
        intro members hmembers
        apply hrepeatable members
        rw [Pointer.find?_text]
        exact (Config.lookup_pointer htarget document).trans hmembers
      have hnone : convert config document [⟨.replace, some text, some value⟩] = .ok [] := by
        rw [convert_filtered_replacement config hparse hcheck,
          selected_eq_nil _ (not_exists.1 harray) hobject]
        rfl
      obtain rfl := Except.ok.inj (hnone.symm.trans hconvert)
      obtain rfl := Except.ok.inj happly
      exact ⟨[], hnone, rfl⟩

/-- The first run adds a sub-attribute to the selected element, and the second run replaces it. -/
theorem exists_convert_again_sample :
    ∃ document operation path edits after again,
      document = .obj [("Emails", .arr [.obj [("type", .str "work")], .null])] ∧
      operation = ⟨.replace, some "emails[type eq \"work\"].value", some (.str "x")⟩ ∧
      PatchPath.parse "emails[type eq \"work\"].value" = .ok path ∧
      path.Repeatable {} document ∧
      edits = [⟨.add, "/Emails/0/value", some (.str "x")⟩] ∧
      convert {} document [operation] = .ok edits ∧ Edit.applyAll edits document = .ok after ∧
      again = [⟨.replace, "/Emails/0/value", some (.str "x")⟩] ∧
      convert {} after [operation] = .ok again ∧ Edit.applyAll again after = .ok after := by
  have hparse : PatchPath.parse "emails[type eq \"work\"].value" =
      .ok (.filtered ⟨⟨none, ["emails"]⟩, .comparison ⟨none, ["type"]⟩ .eq (.text "work"),
        some ⟨none, ["value"]⟩⟩) := rfl
  have hfind : Pointer.find? "/Emails"
      (.obj [("Emails", .arr [.obj [("type", .str "work")], .null])]) =
        some (.arr [.obj [("type", .str "work")], .null]) := rfl
  have hrepeatable : PatchPath.Repeatable {}
      (.obj [("Emails", .arr [.obj [("type", .str "work")], .null])])
      (.filtered ⟨⟨none, ["emails"]⟩, .comparison ⟨none, ["type"]⟩ .eq (.text "work"),
        some ⟨none, ["value"]⟩⟩) := by
    intro members hmembers
    cases hfind.symm.trans hmembers
  have hconvert : convert {} (.obj [("Emails", .arr [.obj [("type", .str "work")], .null])])
      [⟨.replace, some "emails[type eq \"work\"].value", some (.str "x")⟩] =
    .ok [⟨.add, "/Emails/0/value", some (.str "x")⟩] := rfl
  have happly : Edit.applyAll [⟨.add, "/Emails/0/value", some (.str "x")⟩]
      (.obj [("Emails", .arr [.obj [("type", .str "work")], .null])]) =
    .ok (.obj [("Emails", .arr [.obj [("type", .str "work"), ("value", .str "x")], .null])]) := rfl
  have hagain : convert {}
      (.obj [("Emails", .arr [.obj [("type", .str "work"), ("value", .str "x")], .null])])
      [⟨.replace, some "emails[type eq \"work\"].value", some (.str "x")⟩] =
    .ok [⟨.replace, "/Emails/0/value", some (.str "x")⟩] := rfl
  have hop : PatchOp.replace = .replace := rfl
  obtain ⟨again, hconverted, hsame⟩ :=
    exists_convert_again hop rfl hparse hrepeatable hconvert happly
  obtain rfl := Except.ok.inj (hagain.symm.trans hconverted)
  exact ⟨_, _, _, _, _, _, rfl, rfl, hparse, hrepeatable, rfl, hconvert, happly, rfl, hagain, hsame⟩

end Patch

end Scim
