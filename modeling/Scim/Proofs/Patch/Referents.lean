import Scim.Proofs.Attribute.Lookup
import Scim.Proofs.Patch.Ancestry
import Scim.Proofs.Patch.Erasure
import Scim.Proofs.Patch.Removal

/-!
What the edits of a conversion refer to. A name is looked up before a step is made of it, so a step
that replaces or removes leads to a value of the document under the key that the value has there, and
so does its pointer when it is read back from its text. Only additions may lead to nothing.
-/
namespace Scim.Patch

variable {config : Config} {document : Json} {tokens : List String} {action : Action} {step : Step}
  {steps : List Step}

def Step.Refers (document : Json) : Step → Prop
  | .edit op tokens _ => op ≠ .add → ∃ value, Pointer.lookup tokens document = some value
  | .stage removal => ∃ value, Pointer.lookup removal.place document = some value

theorem refers_add (tokens : List String) (value : Option Json) :
    (Step.edit .add tokens value).Refers document :=
  fun hop => absurd rfl hop

theorem refers_of_lookup {found : Json} (h : Pointer.lookup tokens document = some found)
    (op : PatchOp) (value : Option Json) : (Step.edit op tokens value).Refers document :=
  fun _ => ⟨found, h⟩

theorem refers_fieldSteps {op : PatchOp} {existing : Option (List (String × Json))}
    {fields : List (String × Json)}
    (hexisting : op ≠ .add → ∀ members, existing = some members →
      Pointer.lookup tokens document = some (.obj members))
    (h : step ∈ fieldSteps config op tokens existing fields) : step.Refers document := by
  obtain ⟨⟨field, value⟩, -, rfl⟩ := List.mem_map.1 h
  dsimp only
  split
  · rename_i key hkey
    intro hop
    obtain ⟨members, hmembers, hkey⟩ := Option.bind_eq_some_iff.1 hkey
    obtain ⟨⟨_, child⟩, hmember, rfl⟩ := Option.map_eq_some_iff.1 hkey
    refine ⟨child, ?_⟩
    rw [Pointer.lookup_append, hexisting hop members hmembers, Option.bind_some,
      Pointer.lookup_member]
    exact (Config.member?_eq_some hmember).2
  · exact refers_add _ _

theorem refers_addSteps {target : Option Json} {value : Json}
    (h : step ∈ addSteps config tokens target value) : step.Refers document := by
  unfold addSteps at h
  split at h
  · obtain ⟨item, -, rfl⟩ := List.mem_map.1 h
    exact refers_add _ _
  · obtain rfl := List.mem_singleton.1 h
    exact refers_add _ _
  · exact refers_fieldSteps (fun hop => absurd rfl hop) h
  · obtain rfl := List.mem_singleton.1 h
    exact refers_add _ _

theorem refers_replaceSteps {value : Json}
    (h : step ∈ replaceSteps tokens (Pointer.lookup tokens document) value) :
    step.Refers document := by
  obtain rfl := List.mem_singleton.1 h
  cases hlookup : Pointer.lookup tokens document with
  | none => exact refers_add _ _
  | some found => exact refers_of_lookup hlookup _ _

theorem refers_removeSteps {criteria : Option Json}
    (h : step ∈ removeSteps config tokens (Pointer.lookup tokens document) criteria) :
    step.Refers document := by
  unfold removeSteps at h
  split at h
  · simp at h
  · rename_i items value hlookup
    obtain ⟨index, hindex, rfl⟩ := List.mem_map.1 h
    obtain ⟨item, hitem, -⟩ := mem_indicesWhere.1 hindex
    refine ⟨item, ?_⟩
    rw [Removal.place, Pointer.lookup_append, hlookup, Option.bind_some, Pointer.lookup_indexToken,
      hitem]
  · rename_i hlookup _
    obtain rfl := List.mem_singleton.1 h
    exact refers_of_lookup hlookup _ _

theorem refers_rootSteps (hsteps : rootSteps config document action = .ok steps) (h : step ∈ steps) :
    step.Refers document := by
  unfold rootSteps at hsteps
  split at hsteps
  · rw [← Except.ok.inj hsteps] at h
    exact refers_fieldSteps (fun hop => absurd rfl hop) h
  · rw [← Except.ok.inj hsteps] at h
    refine refers_fieldSteps (fun _ members hmembers => ?_) h
    cases document with
    | obj own => rw [Option.some.inj hmembers, Pointer.lookup]
    | _ => simp [Json.members?] at hmembers
  · rw [← Except.ok.inj hsteps] at h
    obtain rfl := List.mem_singleton.1 h
    exact refers_add _ _
  · simp at hsteps
  · simp at hsteps

theorem refers_attributeSteps {path : AttributePath}
    (hsteps : attributeSteps config document path action = .ok steps) (h : step ∈ steps) :
    step.Refers document := by
  unfold attributeSteps at hsteps
  split at hsteps
  · exact refers_rootSteps hsteps h
  · rw [← Except.ok.inj hsteps] at h
    cases action with
    | add value => exact refers_addSteps h
    | replace value => exact refers_replaceSteps h
    | remove criteria => exact refers_removeSteps h

/-- A selected value stands at its pointer. -/
theorem lookup_elementTokens {filter : Expression} {index : Option Nat} {element : Json}
    (h : (index, element) ∈ selected config filter (Pointer.lookup tokens document)) :
    Pointer.lookup (elementTokens tokens index) document = some element := by
  unfold selected at h
  split at h
  · rename_i items hitems
    obtain ⟨⟨item, position⟩, hmem, heq⟩ := List.mem_map.1 h
    obtain ⟨rfl, rfl⟩ := Prod.mk.inj heq
    have hitem := List.mem_zipIdx_iff_getElem?.1 (List.mem_filter.1 hmem).1
    rw [elementTokens, Pointer.lookup_append, hitems, Option.bind_some, Pointer.lookup_indexToken]
    exact hitem
  · rename_i members hmembers
    split at h
    · obtain ⟨rfl, rfl⟩ := Prod.mk.inj (List.mem_singleton.1 h)
      exact hmembers
    · simp at h
  · simp at h

theorem refers_elementSteps {index : Option Nat} {element : Json}
    (helement : Pointer.lookup (elementTokens tokens index) document = some element)
    (h : step ∈ elementSteps config tokens index element action) : step.Refers document := by
  unfold elementSteps at h
  split at h
  · exact refers_fieldSteps (fun hop => absurd rfl hop) h
  · simp at h
  · obtain rfl := List.mem_singleton.1 h
    exact refers_of_lookup helement _ _
  · split at h
    · obtain rfl := List.mem_singleton.1 h
      exact ⟨element, helement⟩
    · obtain rfl := List.mem_singleton.1 h
      exact refers_of_lookup helement _ _

/-- What the tokens of a sub-attribute lead to from an element is what they lead to behind the tokens
of the element. -/
theorem refers_subSteps {element : Json} {sub : AttributePath}
    (helement : Pointer.lookup tokens document = some element)
    (h : step ∈ subSteps config tokens element sub action) : step.Refers document := by
  have hlookup : Pointer.lookup (config.pointer element sub) element =
      Pointer.lookup (tokens ++ config.pointer element sub) document := by
    rw [Pointer.lookup_append, helement, Option.bind_some]
  simp only [subSteps, hlookup] at h
  cases action with
  | add value => exact refers_addSteps h
  | replace value => exact refers_replaceSteps h
  | remove criteria => exact refers_removeSteps h

theorem refers_filteredSteps {text : String} {path : ValuePath}
    (hsteps : filteredSteps config document text path action = .ok steps) (h : step ∈ steps) :
    step.Refers document := by
  obtain ⟨⟨index, element⟩, hselected, h⟩ := exists_selected_of_mem hsteps h
  have helement := lookup_elementTokens hselected
  unfold selectedSteps at h
  split at h
  · exact refers_elementSteps helement h
  · exact refers_subSteps helement h

/-- The steps of an operation refer to values of the document. -/
theorem refers_operationSteps {operation : Operation}
    (hsteps : operationSteps config document operation = .ok steps) (h : step ∈ steps) :
    step.Refers document := by
  obtain ⟨action, -, hsteps | ⟨text, path, -, -, hsteps⟩⟩ := operationSteps_cases hsteps
  · exact refers_rootSteps hsteps h
  · cases path with
    | plain path => exact refers_attributeSteps hsteps h
    | filtered path => exact refers_filteredSteps hsteps h

theorem refers_batchSteps {operations : List Operation}
    (hsteps : batchSteps config document operations = .ok steps) (h : step ∈ steps) :
    step.Refers document := by
  obtain ⟨operation, -, own, hown, h⟩ := exists_operation_of_mem hsteps h
  exact refers_operationSteps hown h

/-- Every replacement and every removal of a conversion has a pointer whose text leads to a value of
the document. -/
theorem exists_find?_of_mem_convert {operations : List Operation} {edits : List Edit}
    (hconvert : convert config document operations = .ok edits) {edit : Edit} (hedit : edit ∈ edits)
    (hop : edit.op ≠ .add) : ∃ value, Pointer.find? edit.pointer document = some value := by
  obtain ⟨steps, hsteps, rfl⟩ := Except.map_eq_ok_iff.1 hconvert
  rcases List.mem_append.1 hedit with hedit | hedit
  · obtain ⟨tokens, hstep, hpointer⟩ := mem_immediate hedit
    rw [hpointer, Pointer.find?_text]
    exact refers_batchSteps hsteps hstep hop
  · obtain ⟨removal, hremoval, rfl⟩ := List.mem_map.1 hedit
    have hstep := mem_staged.1 (List.mem_filter.1 hremoval).1
    obtain ⟨value, hvalue⟩ := refers_batchSteps hsteps hstep
    refine ⟨value, ?_⟩
    rw [Removal.edit, Pointer.find?_text]
    exact hvalue

/-- A field with a slash, a member of a selected element in another case, and a selected element. -/
theorem exists_find?_of_mem_convert_sample :
    ∃ document operations edits edit,
      document = .obj [("a/b", .num "1"), ("Emails", .arr [.obj [("type", .str "work"),
        ("Value", .str "x")], .obj [("type", .str "home")]])] ∧
      operations = [⟨.remove, some "emails[type eq \"home\"]", none⟩,
        ⟨.replace, none, some (.obj [("A/B", .num "2"), ("c", .null)])⟩,
        ⟨.replace, some "emails[type eq \"work\"].value", some (.str "y")⟩] ∧
      edits = [⟨.replace, "/a~1b", some (.num "2")⟩, ⟨.add, "/c", some .null⟩,
        ⟨.replace, "/Emails/0/Value", some (.str "y")⟩, ⟨.remove, "/Emails/1", none⟩] ∧
      convert {} document operations = .ok edits ∧
      edit = ⟨.replace, "/Emails/0/Value", some (.str "y")⟩ ∧ edit ∈ edits ∧ edit.op ≠ .add ∧
      ∃ value, Pointer.find? edit.pointer document = some value := by
  have hconvert : convert {} (.obj [("a/b", .num "1"), ("Emails", .arr [.obj [("type", .str "work"),
      ("Value", .str "x")], .obj [("type", .str "home")]])])
    [⟨.remove, some "emails[type eq \"home\"]", none⟩,
      ⟨.replace, none, some (.obj [("A/B", .num "2"), ("c", .null)])⟩,
      ⟨.replace, some "emails[type eq \"work\"].value", some (.str "y")⟩] =
    .ok [⟨.replace, "/a~1b", some (.num "2")⟩, ⟨.add, "/c", some .null⟩,
      ⟨.replace, "/Emails/0/Value", some (.str "y")⟩, ⟨.remove, "/Emails/1", none⟩] := rfl
  have hedit : (⟨.replace, "/Emails/0/Value", some (.str "y")⟩ : Edit) ∈
      [⟨.replace, "/a~1b", some (.num "2")⟩, ⟨.add, "/c", some .null⟩,
        ⟨.replace, "/Emails/0/Value", some (.str "y")⟩, ⟨.remove, "/Emails/1", none⟩] := by simp
  have hop : PatchOp.replace ≠ .add := by decide
  exact ⟨_, _, _, _, rfl, rfl, rfl, hconvert, rfl, hedit, hop,
    exists_find?_of_mem_convert hconvert hedit hop⟩

end Scim.Patch
