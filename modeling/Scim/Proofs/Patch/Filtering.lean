import Scim.Proofs.Attribute.Assignment
import Scim.Proofs.Filter.Legality
import Scim.Proofs.Patch.Locality
import Scim.Proofs.Patch.Selection

/-!
Single operations, with and without a filter in their path. Evaluating the filter inside a grouping and
converting the removal of what it selects find the same values, although the one opens all arrays on
its way and the other follows a pointer.
-/
namespace Scim.Patch

variable {config : Config} {document : Json} {operation : Operation} {action : Action}
  {text : String} {path : ValuePath} {target : AttributePath} {filter : Expression}
  {items : List Json} {tokens : List String} {test : Json → Bool}

/-- The edits of an operation whose path names a place below the document itself. -/
theorem convert_plain (config : Config) (document : Json) (haction : actionOf operation = .ok action)
    (hpath : operation.path = some text) (hparse : PatchPath.parse text = .ok (.plain target))
    (hne : config.names target ≠ []) :
    convert config document [operation] = .ok (assemble (targetSteps config
      (config.pointer document target) (config.follow (config.names target) document) action)) := by
  obtain ⟨⟨targetText, htarget⟩, -⟩ := PatchPath.parse_eq_ok hparse
  have hlookup : Pointer.lookup (config.pointer document target) document =
      config.follow (config.names target) document := Config.lookup_pointer htarget document
  have hpointer : config.pointer document target ≠ [] := Config.tokens_ne_nil hne _
  apply convert_singleton
  rw [operationSteps_of_path hpath (PatchPath.ne_empty_of_parse hparse), haction, hparse, ← hlookup]
  obtain ⟨token, tokens, hcons⟩ := List.exists_cons_of_ne_nil hpointer
  simp only [bind, Except.bind, pathSteps, attributeSteps, hcons]

/-- The edits of an operation with a filter, unless it adds something that is no object. -/
theorem convert_filtered (config : Config) (document : Json)
    (haction : actionOf operation = .ok action)
    (hpath : operation.path = some text) (hparse : PatchPath.parse text = .ok (.filtered path))
    (hcheck : path.filter.check = .ok ()) (hadds : addsNoFields path.sub action = false) :
    convert config document [operation] = .ok (assemble
      ((selected config path.filter (config.follow (config.names path.target) document)).flatMap
        (selectedSteps config (config.pointer document path.target) path.sub action))) := by
  obtain ⟨⟨targetText, htarget⟩, -⟩ := PatchPath.parse_eq_ok hparse
  have hlookup : Pointer.lookup (config.pointer document path.target) document =
      config.follow (config.names path.target) document := Config.lookup_pointer htarget document
  apply convert_singleton
  rw [operationSteps_of_path hpath (PatchPath.ne_empty_of_parse hparse), haction, hparse, ← hlookup]
  exact filteredSteps_eq_ok_iff.2 ⟨hcheck, by simp [hadds], rfl⟩

def removalSteps (tokens : List String) (test : Json → Bool) (items : List Json) : List Step :=
  (indicesWhere test items).map fun index => .stage ⟨tokens, index⟩

theorem assemble_removalSteps : assemble (removalSteps tokens test items) =
    (staged (removalSteps tokens test items)).map Removal.edit := by
  apply assemble_of_stages
  intro step hstep
  obtain ⟨index, -, rfl⟩ := List.mem_map.1 hstep
  exact ⟨_, rfl⟩

/-- The removals are those of the elements that pass the test. -/
theorem mem_staged_removalSteps {removal : Removal} :
    removal ∈ staged (removalSteps tokens test items) ↔
      removal.array = tokens ∧ ∃ item, items[removal.index]? = some item ∧ test item = true := by
  obtain ⟨array, index⟩ := removal
  simp only [mem_staged, removalSteps, List.mem_map, mem_indicesWhere, Step.stage.injEq,
    Removal.mk.injEq]
  constructor
  · rintro ⟨_, hitem, rfl, rfl⟩
    exact ⟨rfl, hitem⟩
  · rintro ⟨rfl, hitem⟩
    exact ⟨index, hitem, rfl, rfl⟩

/-- Some element is removed exactly if one passes the test. -/
theorem assemble_removalSteps_ne_nil_iff :
    assemble (removalSteps tokens test items) ≠ [] ↔ items.any test = true := by
  rw [assemble_removalSteps, List.any_eq_true]
  constructor
  · intro hne
    obtain ⟨edit, hedit⟩ := List.exists_mem_of_ne_nil _ hne
    obtain ⟨removal, hremoval, -⟩ := List.mem_map.1 hedit
    obtain ⟨-, item, hitem, htest⟩ := mem_staged_removalSteps.1 hremoval
    exact ⟨item, List.mem_of_getElem? hitem, htest⟩
  · rintro ⟨item, hitem, htest⟩
    obtain ⟨index, hindex⟩ := List.mem_iff_getElem?.1 hitem
    have hremoval : ⟨tokens, index⟩ ∈ staged (removalSteps tokens test items) :=
      mem_staged_removalSteps.2 ⟨rfl, item, hindex, htest⟩
    exact List.ne_nil_of_mem (List.mem_map_of_mem hremoval)

/-- Together the removals leave the elements that do not pass the test. -/
theorem applyAll_removalSteps (hreach : document.reach tokens = some (.arr items)) :
    Edit.applyAll (assemble (removalSteps tokens test items)) document =
      .ok (Json.put tokens (.arr (items.filter fun item => !test item)) document) := by
  have hfits : ∀ removal ∈ staged (removalSteps tokens test items), removal.Fits document := by
    rintro ⟨array, index⟩ hremoval
    obtain ⟨rfl, item, hitem, -⟩ := mem_staged_removalSteps.1 hremoval
    exact ⟨items, hreach, (List.getElem?_eq_some_iff.1 hitem).1⟩
  have hkeep : keep (fun index => (staged (removalSteps tokens test items)).contains
      ⟨tokens, index⟩) items = items.filter fun item => !test item := by
    apply keep_eq_filter
    intro index item hitem
    rw [Bool.eq_iff_iff, List.contains_iff_mem, mem_staged_removalSteps]
    simp [hitem]
  rw [assemble_removalSteps, applyAll_removals (ordered_staged _) hfits,
    Json.mapArrays_eq_put hreach, hkeep]
  intro other others hne
  apply keep_none
  intro index
  apply Bool.eq_false_iff.2
  intro hcontains
  exact hne (mem_staged_removalSteps.1 (List.contains_iff_mem.1 hcontains)).1

/-- A grouping is true of a document if its filter is true of a value of the path. -/
theorem accepts_grouping (hcheck : filter.check = .ok ()) (target : AttributePath)
    (document : Json) : config.accepts (.grouping target filter) document =
      .ok ((config.resolve document target).any (config.holds filter)) := by
  rw [Config.accepts, Expression.check_grouping hcheck, Config.holds]
  rfl

/-- A filter selects a value that is no scalar, or elements of it, if it holds of some of them. -/
theorem assemble_selected_ne_nil_iff {value : Json}
    (hvalue : value.isArray = true ∨ value.isObject = true) (criteria : Option Json) :
    assemble ((selected config filter (some value)).flatMap
        (selectedSteps config tokens none (.remove criteria))) ≠ [] ↔
      value.elements.any (config.holds filter) = true := by
  cases value with
  | arr items =>
    rw [flatMap_selected_arr]
    exact assemble_removalSteps_ne_nil_iff
  | obj members =>
    by_cases hholds : config.holds filter (.obj members) = true
    · simp [selected, hholds, selectedSteps, elementSteps, assemble, immediate, Json.elements]
    · simp [selected, hholds, assemble, immediate, stagedWhere, staged, Json.elements]
  | _ => simp [Json.isArray, Json.isObject, Json.members?] at hvalue

/-- A grouping is true of a document exactly if the removal of what its filter selects comes to some
edit. Once the elements of an array are removed, the grouping is false. -/
theorem accepts_iff_convert_removal_ne_nil (config : Config) (criteria : Option Json)
    (hparse : PatchPath.parse text = .ok (.filtered ⟨target, filter, none⟩))
    (hcheck : filter.check = .ok ())
    (hway : config.OnWay (·.isArray = false) (config.names target) document)
    (hend : ∀ value, config.follow (config.names target) document = some value →
      value.isArray = true ∨ value.isObject = true) :
    ∃ edits, convert config document [⟨.remove, some text, criteria⟩] = .ok edits ∧
      (config.accepts (.grouping target filter) document = .ok true ↔ edits ≠ []) ∧
      ∀ items, config.follow (config.names target) document = some (.arr items) →
        ∃ after, Edit.applyAll edits document = .ok after ∧
          config.accepts (.grouping target filter) after = .ok false := by
  have haction : actionOf ⟨.remove, some text, criteria⟩ = .ok (.remove criteria) := rfl
  have hconvert := convert_filtered config document haction rfl hparse hcheck rfl
  refine ⟨_, hconvert, ?_, ?_⟩
  · rw [accepts_grouping hcheck, Config.resolve_eq hway]
    cases hfollow : config.follow (config.names target) document with
    | none => simp [selected, assemble, immediate, stagedWhere, staged]
    | some value =>
      rw [assemble_selected_ne_nil_iff (hend value hfollow) criteria]
      simp
  · intro items hitems
    have hreach := (config.reach_pointer target document).trans hitems
    have hafter : config.follow (config.names target)
        (Json.put (config.pointer document target)
          (.arr (items.filter fun item => !config.holds filter item)) document) =
        some (.arr (items.filter fun item => !config.holds filter item)) :=
      Config.follow_put hitems _
    rw [hitems, flatMap_selected_arr]
    refine ⟨_, applyAll_removalSteps hreach, ?_⟩
    rw [accepts_grouping hcheck, Config.resolve_of_follow hafter]
    simp [Json.elements]

/-- One of two elements is selected, by a name in another case than that of the document. -/
theorem accepts_iff_convert_removal_ne_nil_sample :
    ∃ document items filter edits after,
      document = .obj [("Emails", .arr items)] ∧
      items = [.obj [("type", .str "work")], .obj [("n", .num "1")]] ∧
      filter = .logical .or (.comparison ⟨none, ["type"]⟩ .eq (.text "work"))
        (.comparison ⟨none, ["n"]⟩ .eq (.boolean true)) ∧
      PatchPath.parse "emails[type eq \"work\" or n eq true]" =
        .ok (.filtered ⟨⟨none, ["emails"]⟩, filter, none⟩) ∧
      filter.check = .ok () ∧ Config.OnWay {} (·.isArray = false) ["emails"] document ∧
      Config.follow {} ["emails"] document = some (.arr items) ∧
      convert {} document [⟨.remove, some "emails[type eq \"work\" or n eq true]", none⟩] =
        .ok edits ∧
      Config.accepts {} (.grouping ⟨none, ["emails"]⟩ filter) document = .ok true ∧ edits ≠ [] ∧
      Edit.applyAll edits document = .ok after ∧
      Config.accepts {} (.grouping ⟨none, ["emails"]⟩ filter) after = .ok false := by
  have hparse : PatchPath.parse "emails[type eq \"work\" or n eq true]" =
      .ok (.filtered ⟨⟨none, ["emails"]⟩, .logical .or
        (.comparison ⟨none, ["type"]⟩ .eq (.text "work"))
        (.comparison ⟨none, ["n"]⟩ .eq (.boolean true)), none⟩) := rfl
  have hfollow : Config.follow {} ["emails"] (.obj [("Emails",
      .arr [.obj [("type", .str "work")], .obj [("n", .num "1")]])]) =
      some (.arr [.obj [("type", .str "work")], .obj [("n", .num "1")]]) := rfl
  have hway := (Config.onWay_of_follow hfollow).mono fun _ => Json.not_isArray_of_isObject
  have hend : ∀ value, Config.follow {} ["emails"] (.obj [("Emails",
      .arr [.obj [("type", .str "work")], .obj [("n", .num "1")]])]) = some value →
      value.isArray = true ∨ value.isObject = true := by
    intro value hvalue
    obtain rfl := Option.some.inj (hfollow.symm.trans hvalue)
    exact .inl rfl
  obtain ⟨edits, hconvert, haccepts, happly⟩ :=
    accepts_iff_convert_removal_ne_nil {} none hparse rfl hway hend
  obtain ⟨after, hafter, hfalse⟩ := happly _ hfollow
  exact ⟨_, _, _, edits, after, rfl, rfl, rfl, hparse, rfl, hway, hfollow, hconvert, rfl,
    haccepts.1 rfl, hafter, hfalse⟩

end Scim.Patch
