import Scim.Proofs.Attribute.Lookup
import Scim.Proofs.Patch.Division
import Scim.Proofs.Patch.Staging

/-!
Fields added to the document, or replaced in it, without a path. Each becomes one edit of a member,
under the key that the document has for it, so together they set these members one after the other.
A field with an empty name is the exception: the text of its pointer is read as the whole document.
-/
namespace Scim

def Config.respelled (config : Config) (members fields : List (String × Json)) :
    List (String × Json) :=
  fields.map fun field => (config.spelled members field.1, field.2)

namespace Patch

variable {config : Config} {op : PatchOp} {members fields now : List (String × Json)}
  {path : Option String}

def fieldEdit (config : Config) (op : PatchOp) (members : List (String × Json))
    (field : String × Json) : Edit :=
  ⟨if (config.key? members field.1).isSome then op else .add,
    Pointer.text [config.spelled members field.1], some field.2⟩

theorem fieldSteps_eq_map (base : List String) :
    fieldSteps config op base (some members) fields = fields.map fun field =>
      .edit (fieldEdit config op members field).op (base ++ [config.spelled members field.1])
        (some field.2) := by
  refine List.map_congr_left fun field _ => ?_
  simp only [fieldEdit, Config.spelled, Option.bind_some]
  cases config.key? members field.1 <;> rfl

theorem assemble_fieldSteps : assemble (fieldSteps config op [] (some members) fields) =
    fields.map (fieldEdit config op members) := by
  rw [fieldSteps_eq_map, assemble_map_edit]
  rfl

/-- Fields without a path are converted to one edit each. -/
theorem convert_fields (hop : op ≠ .remove) (hpath : path.getD "" = "") :
    convert config (.obj members) [⟨op, path, some (.obj fields)⟩] =
      .ok (fields.map (fieldEdit config op members)) := by
  have hsteps : operationSteps config (.obj members) ⟨op, path, some (.obj fields)⟩ =
      .ok (fieldSteps config op [] (some members) fields) := by
    cases op with
    | remove => exact absurd rfl hop
    | add => simp only [operationSteps, hpath, if_true]; rfl
    | replace => simp only [operationSteps, hpath, if_true]; rfl
  rw [convert_singleton hsteps, assemble_fieldSteps]

theorem tokens_fieldEdit {field : String × Json} (hfield : field.1 ≠ "") :
    (fieldEdit config op members field).tokens = [config.spelled members field.1] := by
  have hpointer : [config.spelled members field.1] ≠ [""] := by
    simpa using Config.spelled_ne_empty hfield
  rw [Edit.tokens, fieldEdit, Pointer.parse_text hpointer, Option.getD_some]

/-- A member that is to be replaced is there, so the edit of a field can always be made. -/
theorem apply_fieldEdit {field : String × Json} (hop : op ≠ .remove) (hfield : field.1 ≠ "")
    (hnow : Members.keys members ⊆ Members.keys now) :
    (fieldEdit config op members field).apply (.obj now) =
      .ok (.obj (Members.set (config.spelled members field.1) field.2 now)) := by
  have htokens : (fieldEdit config op members field).tokens = [config.spelled members field.1] :=
    tokens_fieldEdit hfield
  have hkey : (fieldEdit config op members field).key? = some (config.spelled members field.1) := by
    rw [Edit.key?, htokens, List.head?_cons]
  refine (Edit.apply_obj_iff hkey).2 ⟨some field.2, ?_, rfl⟩
  have hvalue : (fieldEdit config op members field).value = some field.2 := rfl
  have hadd : (fieldEdit config op members field).op = .add →
      (fieldEdit config op members field).effect
        (Members.find? (config.spelled members field.1) now) = some (some field.2) := by
    intro hop
    simp only [Edit.effect, hop, hvalue, htokens, List.tail_cons]
  cases hfound : config.key? members field.1 with
  | none => exact hadd (by simp [fieldEdit, hfound])
  | some key =>
    cases op with
    | remove => exact absurd rfl hop
    | add => exact hadd (by simp [fieldEdit])
    | replace =>
      have hreplace : (fieldEdit config .replace members field).op = .replace := by
        simp [fieldEdit, hfound]
      have hspelled : config.spelled members field.1 = key := by simp [Config.spelled, hfound]
      obtain ⟨child, hchild⟩ : ∃ child, Members.find? key now = some child := by
        refine Option.ne_none_iff_exists'.1 fun hnone => ?_
        exact Members.find?_eq_none_iff.1 hnone (hnow (Config.key?_eq_some hfound).1)
      rw [hspelled, hchild]
      simp only [Edit.effect, hreplace, hvalue, htokens, List.tail_cons]
      rfl

/-- These edits merge the fields, whatever has been merged before. -/
theorem applyAll_fieldEdits (hop : op ≠ .remove) (hfields : "" ∉ Members.keys fields)
    (hnow : Members.keys members ⊆ Members.keys now) :
    Edit.applyAll (fields.map (fieldEdit config op members)) (.obj now) =
      .ok (.obj (Members.merge now (config.respelled members fields))) := by
  induction fields generalizing now with
  | nil => rfl
  | cons field fields ih =>
    obtain ⟨hfield, hfields⟩ := not_or.1 (mt List.mem_cons.2 hfields)
    have hnext : Members.keys members ⊆
        Members.keys (Members.set (config.spelled members field.1) field.2 now) :=
      fun key hkey => Members.mem_keys_set.2 (.inr (hnow hkey))
    exact Except.foldlM_cons_eq_ok_iff.2
      ⟨_, apply_fieldEdit hop (Ne.symm hfield) hnow, ih hfields hnext⟩

/-- Adding or replacing fields without a path always succeeds, and it sets the fields one after the
other in the document. -/
theorem applyAll_convert_fields (config : Config) (members : List (String × Json))
    (hop : op ≠ .remove) (hpath : path.getD "" = "") (hfields : "" ∉ Members.keys fields) :
    ∃ edits, convert config (.obj members) [⟨op, path, some (.obj fields)⟩] = .ok edits ∧
      Edit.applyAll edits (.obj members) =
        .ok (.obj (Members.merge members (config.respelled members fields))) ∧
      ∀ key ∉ Members.keys (config.respelled members fields),
        Members.find? key (Members.merge members (config.respelled members fields)) =
          Members.find? key members :=
  ⟨_, convert_fields hop hpath, applyAll_fieldEdits hop hfields (List.Subset.refl _),
    fun _ hkey => Members.find?_merge_of_notMem hkey members⟩

/-- Names in other cases, a slash, and two fields of one member, the second of which wins. -/
theorem applyAll_convert_fields_sample :
    ∃ members fields edits,
      members = [("title", .str "x"), ("Name", .null), ("a/b", .bool true)] ∧
      fields = [("NAME", .num "1"), ("A/B", .null), ("name", .num "2"), ("0", .str "y")] ∧
      convert {} (.obj members) [⟨.replace, none, some (.obj fields)⟩] = .ok edits ∧
      Edit.applyAll edits (.obj members) =
        .ok (.obj [("title", .str "x"), ("Name", .num "2"), ("a/b", .null), ("0", .str "y")]) := by
  have hop : PatchOp.replace ≠ .remove := by decide
  have hpath : (none : Option String).getD "" = "" := rfl
  have hfields : "" ∉ Members.keys
      [("NAME", Json.num "1"), ("A/B", .null), ("name", .num "2"), ("0", .str "y")] := by decide
  obtain ⟨edits, hedits, happly, -⟩ := applyAll_convert_fields {}
    [("title", .str "x"), ("Name", .null), ("a/b", .bool true)] hop hpath hfields
  exact ⟨_, _, edits, rfl, rfl, hedits, happly⟩

/-- A field with an empty name takes the place of the whole document. -/
theorem applyAll_empty_field_ne :
    ∃ members fields edits,
      members = [("userName", .str "x")] ∧ fields = [("", .str "y")] ∧
      convert {} (.obj members) [⟨.add, none, some (.obj fields)⟩] = .ok edits ∧
      Edit.applyAll edits (.obj members) = .ok (.str "y") ∧
      Edit.applyAll edits (.obj members) ≠
        .ok (.obj (Members.merge members (Config.respelled {} members fields))) := by
  have hconvert : convert {} (.obj [("userName", .str "x")])
      [⟨.add, none, some (.obj [("", .str "y")])⟩] = .ok [⟨.add, "/", some (.str "y")⟩] := rfl
  have happly : Edit.applyAll [⟨.add, "/", some (.str "y")⟩] (.obj [("userName", .str "x")]) =
      .ok (.str "y") := rfl
  exact ⟨_, _, _, rfl, rfl, hconvert, happly, by simp [happly]⟩

end Patch

end Scim
