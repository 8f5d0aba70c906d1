import Scim.Proofs.Patch.Merging
import Scim.Proofs.Patch.Replacement

/-!
Additions at a place below the document itself. The elements that an array gets, and the fields that
an object gets, are added by one edit each, and one after the other they change the value at the place
and nothing else. Where there is nothing yet, the objects on the way are made.
-/
namespace Scim

/-- What an addition makes of the value that it finds. An array gets more elements, an object gets the
fields of an object, and anything else is exchanged. -/
def Config.added (config : Config) (value : Json) : Option Json → Json
  | some (.arr items) => .arr (items ++ value.elements)
  | some (.obj members) =>
    match value with
    | .obj fields => .obj (Members.merge members (config.respelled members fields))
    | value => value
  | _ => value

namespace Patch

variable {config : Config} {document old new value : Json} {tokens names : List String}
  {text : String} {path : AttributePath}

theorem apply_child (hne : tokens ≠ []) (hreach : document.reach tokens = some old) {token : String}
    (hnew : Edit.addChild token value old = .ok new) :
    Edit.apply ⟨.add, Pointer.text (tokens ++ [token]), some value⟩ document =
      .ok (Json.put tokens new document) := by
  have hblank : tokens ++ [token] ≠ [""] := by
    intro h
    cases tokens with
    | nil => exact hne rfl
    | cons first rest => simp at h
  have hadd : Edit.add [token] value old = .ok new := hnew
  simp only [Edit.apply, Pointer.parse_text hblank,
    Edit.add_append hreach (List.cons_ne_nil token []), hadd]
  rfl

/-- Edits that each put something into the value at one place come to one change of this value. -/
theorem applyAll_children {α : Type} (token : α → String) (child : α → Json) {all : List α}
    (hne : tokens ≠ []) (hreach : document.reach tokens = some old)
    (hnew : all.foldlM (fun now a => Edit.addChild (token a) (child a) now) old = .ok new) :
    Edit.applyAll (all.map fun a => ⟨.add, Pointer.text (tokens ++ [token a]), some (child a)⟩)
      document = .ok (Json.put tokens new document) := by
  induction all generalizing document old with
  | nil =>
    obtain rfl : old = new := Except.ok.inj hnew
    rw [Json.put_of_reach hreach]
    rfl
  | cons a rest ih =>
    obtain ⟨next, hnext, hnew⟩ := Except.foldlM_cons_eq_ok_iff.1 hnew
    have hrest := ih (Json.reach_put_self hreach next) hnew
    rw [Json.put_put] at hrest
    exact Except.foldlM_cons_eq_ok_iff.2 ⟨_, apply_child hne hreach hnext, hrest⟩

theorem foldlM_addChild_arr (added items : List Json) :
    added.foldlM (fun now item => Edit.addChild "-" item now) (.arr items) =
      .ok (.arr (items ++ added)) := by
  induction added generalizing items with
  | nil =>
    rw [List.append_nil]
    rfl
  | cons item rest ih =>
    have hrest := ih (items ++ [item])
    rw [List.append_assoc, List.singleton_append] at hrest
    exact Except.foldlM_cons_eq_ok_iff.2 ⟨_, rfl, hrest⟩

/-- Adding fields one after the other merges them. -/
theorem foldlM_addChild_obj (config : Config) (members fields now : List (String × Json)) :
    fields.foldlM (fun now field => Edit.addChild (config.spelled members field.1) field.2 now)
      (.obj now) = .ok (.obj (Members.merge now (config.respelled members fields))) := by
  induction fields generalizing now with
  | nil => rfl
  | cons field rest ih => exact Except.foldlM_cons_eq_ok_iff.2 ⟨_, rfl, ih _⟩

/-- The three shapes of an addition: elements for an array, fields for an object, and a value that
takes the place of whatever is there. -/
theorem addSteps_cases (config : Config) (tokens : List String) (found : Option Json)
    (value : Json) :
    (∃ items, found = some (.arr items) ∧ config.added value found = .arr (items ++ value.elements) ∧
      addSteps config tokens found value =
        value.elements.map fun item => .edit .add (tokens ++ ["-"]) (some item)) ∨
    (∃ members fields, found = some (.obj members) ∧
      config.added value found = .obj (Members.merge members (config.respelled members fields)) ∧
      addSteps config tokens found value = fields.map fun field =>
        .edit .add (tokens ++ [config.spelled members field.1]) (some field.2)) ∨
    (config.added value found = value ∧
      addSteps config tokens found value = [.edit .add tokens (some value)]) := by
  cases found with
  | none => exact .inr (.inr ⟨rfl, rfl⟩)
  | some old =>
    cases old with
    | arr items => exact .inl ⟨items, rfl, rfl, by cases value <;> rfl⟩
    | obj members =>
      cases value with
      | obj fields =>
        refine .inr (.inl ⟨members, fields, rfl, rfl, ?_⟩)
        rw [addSteps, fieldSteps_eq_map]
        simp only [fieldEdit, ite_self]
      | _ => exact .inr (.inr ⟨rfl, rfl⟩)
    | _ => exact .inr (.inr ⟨rfl, rfl⟩)

/-- A value that takes the place takes it whatever was there. -/
theorem applyAll_place (hway : config.OnWay (·.isObject = true) names document)
    (hnames : ∀ name ∈ names, AttributePath.LeadsName name) (hne : names ≠ []) (value : Json) :
    Edit.applyAll (assemble [.edit .add (config.tokens names (some document)) (some value)])
      document = .ok (config.assign value names document) := by
  have happly : Edit.apply
      ⟨.add, Pointer.text (config.tokens names (some document)), some value⟩ document =
        .ok (config.assign value names document) := by
    have hblank : config.tokens names (some document) ≠ [""] := Config.tokens_ne_blank hnames hne _
    simp only [Edit.apply, Pointer.parse_text hblank, Edit.add_tokens hway hne]
    rfl
  exact Except.foldlM_cons_eq_ok_iff.2 ⟨_, happly, rfl⟩

/-- The edits of an addition set what it makes of the value that is there. -/
theorem applyAll_addSteps (hway : config.OnWay (·.isObject = true) names document)
    (hnames : ∀ name ∈ names, AttributePath.LeadsName name) (hne : names ≠ []) (value : Json) :
    Edit.applyAll (assemble (addSteps config (config.tokens names (some document))
        (config.follow names document) value)) document =
      .ok (config.assign (config.added value (config.follow names document)) names document) := by
  have htokens := config.tokens_ne_nil hne (some document)
  have hreach := config.reach_tokens names document
  obtain ⟨items, hfound, hadded, hsteps⟩ | ⟨members, fields, hfound, hadded, hsteps⟩ |
    ⟨hadded, hsteps⟩ := addSteps_cases config (config.tokens names (some document))
      (config.follow names document) value
  · have hchildren := applyAll_children (fun _ => "-") (fun item => item) htokens
      (hreach.trans hfound) (foldlM_addChild_arr value.elements items)
    rw [hadded, hsteps, assemble_map_edit, hchildren, Config.assign_eq_put hfound]
  · have hfold := foldlM_addChild_obj config members fields members
    have hchildren := applyAll_children
      (fun field : String × Json => config.spelled members field.1) (fun field => field.2) htokens
      (hreach.trans hfound) hfold
    rw [hadded, hsteps, assemble_map_edit, hchildren, Config.assign_eq_put hfound]
  · rw [hadded, hsteps]
    exact applyAll_place hway hnames hne value

/-- Adding at a place that is reached through objects, or that is missing from some object on, always
succeeds. It makes of the value there what an addition makes of it, objects that were missing on the
way hold nothing else, and all other places stay as they are. -/
theorem exists_convert_addition (config : Config) (value : Json)
    (hparse : PatchPath.parse text = .ok (.plain path)) (hne : config.names path ≠ [])
    (hway : config.OnWay (·.isObject = true) (config.names path) document) :
    ∃ edits result, convert config document [⟨.add, some text, some value⟩] = .ok edits ∧
      Edit.applyAll edits document = .ok result ∧
      result = config.assign
        (config.added value (config.follow (config.names path) document)) (config.names path)
        document ∧
      config.follow (config.names path) result =
        some (config.added value (config.follow (config.names path) document)) ∧
      (∀ before name rest, config.names path = before ++ name :: rest →
        config.follow before document = none →
          ∃ child, config.follow before result = some (.obj [(name, child)])) ∧
      ∀ other, ¬config.pointer document path <+: other →
        ¬other <+: config.pointer document path → result.reach other = document.reach other := by
  have haction : actionOf ⟨.add, some text, some value⟩ = .ok (.add value) := rfl
  have hconvert : convert config document [⟨.add, some text, some value⟩] =
      .ok (assemble (addSteps config (config.pointer document path)
        (config.follow (config.names path) document) value)) :=
    convert_plain config document haction rfl hparse hne
  obtain ⟨⟨targetText, htarget⟩, -⟩ := PatchPath.parse_eq_ok hparse
  have hnames : ∀ name ∈ config.names path, AttributePath.LeadsName name :=
    fun _ => Config.leadsName_of_mem_names htarget
  have happly := applyAll_addSteps hway hnames hne value
  have hfollow := config.follow_assign
    (config.added value (config.follow (config.names path) document)) (config.names path) document
  refine ⟨_, _, hconvert, happly, rfl, hfollow, ?_, ?_⟩
  · intro before name rest hnames hnone
    rw [hnames]
    exact ⟨_, Config.follow_assign_of_none hnone _⟩
  · intro other hpath hother
    exact Config.reach_assign_of_apart hway _ hpath hother

/-- Fields merged into an object, one of them under a name in another case, and a value in an
extension that the document does not have. -/
theorem exists_convert_addition_sample :
    ∃ document value edits others,
      document = .obj [("Name", .obj [("familyName", .str "x"), ("n", .num "1")])] ∧
      value = .obj [("FamilyName", .str "y"), ("z", .null)] ∧
      PatchPath.parse "name" = .ok (.plain ⟨none, ["name"]⟩) ∧
      Config.names {} ⟨none, ["name"]⟩ ≠ [] ∧
      Config.OnWay {} (·.isObject = true) ["name"] document ∧
      convert {} document [⟨.add, some "name", some value⟩] = .ok edits ∧
      Edit.applyAll edits document = .ok (.obj [("Name",
        .obj [("familyName", .str "y"), ("n", .num "1"), ("z", .null)])]) ∧
      PatchPath.parse "urn:x:a.b" = .ok (.plain ⟨some "urn:x", ["a", "b"]⟩) ∧
      Config.names {} ⟨some "urn:x", ["a", "b"]⟩ ≠ [] ∧
      Config.OnWay {} (·.isObject = true) ["urn:x", "a", "b"] document ∧
      convert {} document [⟨.add, some "urn:x:a.b", some value⟩] = .ok others ∧
      Edit.applyAll others document = .ok (.obj [
        ("Name", .obj [("familyName", .str "x"), ("n", .num "1")]),
        ("urn:x", .obj [("a", .obj [("b", value)])])]) := by
  have hparse : PatchPath.parse "name" = .ok (.plain ⟨none, ["name"]⟩) := rfl
  have hother : PatchPath.parse "urn:x:a.b" = .ok (.plain ⟨some "urn:x", ["a", "b"]⟩) := rfl
  have hname : Config.follow {} ["name"] (.obj [("Name",
      .obj [("familyName", .str "x"), ("n", .num "1")])]) =
      some (.obj [("familyName", .str "x"), ("n", .num "1")]) := rfl
  have hway := Config.onWay_of_follow hname
  have hnone : Config.child? {} (.obj [("Name",
      .obj [("familyName", .str "x"), ("n", .num "1")])]) "urn:x" = none := rfl
  have hmissing : Config.OnWay {} (·.isObject = true) ["urn:x", "a", "b"] (.obj [("Name",
      .obj [("familyName", .str "x"), ("n", .num "1")])]) := by
    rw [Config.onWay_cons_iff, hnone]
    exact ⟨rfl, by simp⟩
  obtain ⟨edits, result, hedits, hresult, rfl, -⟩ := exists_convert_addition {}
    (.obj [("FamilyName", .str "y"), ("z", .null)]) hparse (List.cons_ne_nil _ _) hway
  obtain ⟨others, made, hothers, hmade, rfl, -⟩ := exists_convert_addition {}
    (.obj [("FamilyName", .str "y"), ("z", .null)]) hother (List.cons_ne_nil _ _) hmissing
  exact ⟨_, _, edits, others, rfl, rfl, hparse, List.cons_ne_nil _ _, hway, hedits, hresult, hother,
    List.cons_ne_nil _ _, hmissing, hothers, hmade⟩

end Patch

end Scim
