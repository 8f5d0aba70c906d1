import Mathlib.Data.List.InsertIdx
import Scim.Patch.Conversion
import Scim.Patch.Edit
import Scim.Proofs.Json.Distinct
import Scim.Proofs.Patch.Staging
import Scim.Proofs.Result

/-!
Edits keep the names of all objects distinct, as long as the values that they bring do. The values of
the edits of a conversion are parts of the values of the operations, so they bring nothing else.
-/
namespace Scim

namespace Edit

variable {document result value : Json} {token : String} {tokens : List String}
  {change : Json → Except EditFault Json}

theorem distinctKeys_descend
    (hchange : ∀ child changed, child.DistinctKeys → change child = .ok changed → changed.DistinctKeys)
    (h : document.DistinctKeys) (hresult : descend token change document = .ok result) :
    result.DistinctKeys := by
  cases document with
  | obj members =>
    rw [descend] at hresult
    split at hresult
    · simp at hresult
    · rename_i child hchild
      obtain ⟨changed, hchanged, rfl⟩ := Except.map_eq_ok_iff.1 hresult
      exact h.set token (hchange child changed (h.find hchild) hchanged)
  | arr items =>
    obtain ⟨position, -, hresult⟩ := Except.bind_eq_ok_iff.1 hresult
    obtain ⟨changed, hchanged, hresult⟩ := Except.bind_eq_ok_iff.1 hresult
    obtain rfl := Except.ok.inj hresult
    exact h.setItem position (hchange _ changed (h.getD position) hchanged)
  | _ => simp [descend] at hresult

theorem distinctKeys_update
    (hchange : ∀ child changed, child.DistinctKeys → change child = .ok changed → changed.DistinctKeys)
    (h : document.DistinctKeys) (hresult : update change tokens document = .ok result) :
    result.DistinctKeys := by
  induction tokens generalizing document result with
  | nil => exact hchange document result h hresult
  | cons token tokens ih => exact distinctKeys_descend (fun _ _ => ih) h hresult

theorem distinctKeys_removeChild (h : document.DistinctKeys)
    (hresult : removeChild token document = .ok result) : result.DistinctKeys := by
  cases document with
  | obj members =>
    rw [removeChild] at hresult
    split at hresult
    · simp at hresult
    · obtain rfl := Except.ok.inj hresult
      exact h.erase token
  | arr items =>
    obtain ⟨position, -, rfl⟩ := Except.map_eq_ok_iff.1 hresult
    exact .arr fun item hitem => h.item (List.mem_of_mem_eraseIdx hitem)
  | _ => simp [removeChild] at hresult

theorem distinctKeys_remove (h : document.DistinctKeys) (hresult : remove tokens document = .ok result) :
    result.DistinctKeys := by
  unfold remove at hresult
  split at hresult
  · simp at hresult
  · exact distinctKeys_update (fun _ _ => distinctKeys_removeChild) h hresult

theorem distinctKeys_replace (h : document.DistinctKeys) (hvalue : value.DistinctKeys)
    (hresult : replace tokens value document = .ok result) : result.DistinctKeys := by
  refine distinctKeys_update (fun _ changed _ hchanged => ?_) h hresult
  rwa [← Except.ok.inj hchanged]

theorem distinctKeys_addChild (h : document.DistinctKeys) (hvalue : value.DistinctKeys)
    (hresult : addChild token value document = .ok result) : result.DistinctKeys := by
  cases document with
  | obj members =>
    obtain rfl := Except.ok.inj hresult
    exact h.set token hvalue
  | arr items =>
    rw [addChild] at hresult
    split at hresult
    · obtain rfl := Except.ok.inj hresult
      refine .arr fun item hitem => ?_
      rcases List.mem_append.1 hitem with hitem | hitem
      · exact h.item hitem
      · rwa [List.mem_singleton.1 hitem]
    · obtain ⟨position, -, rfl⟩ := Except.map_eq_ok_iff.1 hresult
      refine .arr fun item hitem => ?_
      rcases List.eq_or_mem_of_mem_insertIdx hitem with rfl | hitem
      · exact hvalue
      · exact h.item hitem
  | _ => simp [addChild] at hresult

theorem distinctKeys_addBelow {rest : List String} (h : document.DistinctKeys)
    (hvalue : value.DistinctKeys) (hresult : addBelow value token rest document = .ok result) :
    result.DistinctKeys := by
  induction rest generalizing token document result with
  | nil => exact distinctKeys_addChild h hvalue hresult
  | cons next rest ih =>
    cases document with
    | obj members =>
      obtain ⟨changed, hchanged, rfl⟩ := Except.map_eq_ok_iff.1 hresult
      have hchild : ((Members.find? token members).getD (.obj [])).DistinctKeys := by
        cases hfound : Members.find? token members with
        | none => exact .obj List.nodup_nil (by simp)
        | some child => exact h.find hfound
      exact h.set token (ih hchild hchanged)
    | arr items =>
      obtain ⟨position, -, hresult⟩ := Except.bind_eq_ok_iff.1 hresult
      obtain ⟨changed, hchanged, hresult⟩ := Except.bind_eq_ok_iff.1 hresult
      obtain rfl := Except.ok.inj hresult
      exact h.setItem position (ih (h.getD position) hchanged)
    | _ => simp [addBelow] at hresult

theorem distinctKeys_addRoot (h : document.DistinctKeys) (hvalue : value.DistinctKeys) :
    (addRoot value document).DistinctKeys := by
  unfold addRoot
  split
  · exact h.merge fun _ hfield => hvalue.member hfield
  · exact hvalue

theorem distinctKeys_add (h : document.DistinctKeys) (hvalue : value.DistinctKeys)
    (hresult : add tokens value document = .ok result) : result.DistinctKeys := by
  cases tokens with
  | nil =>
    obtain rfl := Except.ok.inj hresult
    exact distinctKeys_addRoot h hvalue
  | cons token rest => exact distinctKeys_addBelow h hvalue hresult

theorem located_eq_ok {edit : Edit} {outcome : Except EditFault Json}
    (h : edit.located outcome = .ok result) : outcome = .ok result := by
  cases outcome with
  | ok document => exact congrArg Except.ok (Except.ok.inj h)
  | error fault => simp [located] at h

theorem located_eq_ok_iff {edit : Edit} {outcome : Except EditFault Json} :
    edit.located outcome = .ok result ↔ outcome = .ok result :=
  ⟨located_eq_ok, fun h => by rw [h]; rfl⟩

/-- All that an edit can do where it can be applied. -/
theorem apply_cases {edit : Edit} (h : edit.apply document = .ok result) :
    ∃ tokens, Pointer.parse edit.pointer = some tokens ∧
      (edit.op = .remove ∧ remove tokens document = .ok result ∨
        ∃ value, edit.value = some value ∧
          (edit.op = .add ∧ add tokens value document = .ok result ∨
            edit.op = .replace ∧ replace tokens value document = .ok result)) := by
  unfold apply at h
  split at h
  · simp at h
  rename_i tokens hparse
  refine ⟨tokens, hparse, ?_⟩
  split at h
  · rename_i hop
    exact .inl ⟨hop, located_eq_ok h⟩
  · rename_i value hop hvalue
    exact .inr ⟨value, hvalue, .inl ⟨hop, located_eq_ok h⟩⟩
  · simp at h
  · rename_i value hop hvalue
    exact .inr ⟨value, hvalue, .inr ⟨hop, located_eq_ok h⟩⟩
  · obtain ⟨_, -, h⟩ := Except.bind_eq_ok_iff.1 h
    simp [throw, throwThe, MonadExceptOf.throw] at h

/-- An edit that brings distinct names keeps them distinct. -/
theorem distinctKeys_apply {edit : Edit} (h : document.DistinctKeys)
    (hvalue : ∀ value, edit.value = some value → value.DistinctKeys)
    (hresult : edit.apply document = .ok result) : result.DistinctKeys := by
  obtain ⟨tokens, -, ⟨-, hresult⟩ | ⟨value, hnew, ⟨-, hresult⟩ | ⟨-, hresult⟩⟩⟩ :=
    apply_cases hresult
  · exact distinctKeys_remove h hresult
  · exact distinctKeys_add h (hvalue value hnew) hresult
  · exact distinctKeys_replace h (hvalue value hnew) hresult

theorem applyAll_singleton (edit : Edit) (document : Json) :
    applyAll [edit] document = edit.apply document := by
  rw [applyAll, List.foldlM_cons]
  cases edit.apply document <;> rfl

/-- Edits can be applied in two parts. -/
theorem applyAll_append (edits others : List Edit) (document : Json) :
    applyAll (edits ++ others) document = applyAll edits document >>= applyAll others :=
  List.foldlM_append

/-- What every edit of a list preserves holds after all of them. -/
theorem applyAll_preserves {edits : List Edit} {P : Json → Prop}
    (hedits : ∀ edit ∈ edits, ∀ before after, P before → edit.apply before = .ok after → P after)
    (h : P document) (hresult : applyAll edits document = .ok result) : P result :=
  Except.foldlM_preserves hedits h hresult

/-- Edits that bring documents with distinct names leave one. -/
theorem distinctKeys_applyAll {edits : List Edit} (h : document.DistinctKeys)
    (hvalues : ∀ edit ∈ edits, ∀ value, edit.value = some value → value.DistinctKeys)
    (hresult : applyAll edits document = .ok result) : result.DistinctKeys :=
  applyAll_preserves (fun edit hedit _ _ hbefore => distinctKeys_apply hbefore (hvalues edit hedit))
    h hresult

end Edit

namespace Patch

def Action.DistinctKeys : Action → Prop
  | .add value => value.DistinctKeys
  | .replace value => value.DistinctKeys
  | .remove _ => True

def Step.DistinctKeys : Step → Prop
  | .edit _ _ value => ∀ new, value = some new → new.DistinctKeys
  | .stage _ => True

theorem Step.distinctKeys_edit {value : Json} (h : value.DistinctKeys) (op : PatchOp)
    (tokens : List String) : (Step.edit op tokens (some value)).DistinctKeys := by
  intro new hnew
  rwa [← Option.some.inj hnew]

variable {config : Config} {document : Json} {tokens : List String} {action : Action} {step : Step}
  {steps : List Step}

theorem distinctKeys_fieldSteps {op : PatchOp} {existing : Option (List (String × Json))}
    {fields : List (String × Json)} (hfields : (Json.obj fields).DistinctKeys)
    (h : step ∈ fieldSteps config op tokens existing fields) : step.DistinctKeys := by
  obtain ⟨⟨field, value⟩, hfield, rfl⟩ := List.mem_map.1 h
  have hvalue : value.DistinctKeys := hfields.member hfield
  dsimp only
  split
  · exact Step.distinctKeys_edit hvalue _ _
  · exact Step.distinctKeys_edit hvalue _ _

theorem distinctKeys_addSteps {target : Option Json} {value : Json} (hvalue : value.DistinctKeys)
    (h : step ∈ addSteps config tokens target value) : step.DistinctKeys := by
  unfold addSteps at h
  split at h
  · obtain ⟨item, hitem, rfl⟩ := List.mem_map.1 h
    exact Step.distinctKeys_edit (hvalue.item hitem) _ _
  · obtain rfl := List.mem_singleton.1 h
    exact Step.distinctKeys_edit hvalue _ _
  · exact distinctKeys_fieldSteps hvalue h
  · obtain rfl := List.mem_singleton.1 h
    exact Step.distinctKeys_edit hvalue _ _

theorem distinctKeys_removeSteps {target criteria : Option Json}
    (h : step ∈ removeSteps config tokens target criteria) : step.DistinctKeys := by
  unfold removeSteps at h
  split at h
  · simp at h
  · obtain ⟨index, -, rfl⟩ := List.mem_map.1 h
    trivial
  · obtain rfl := List.mem_singleton.1 h
    intro new hnew
    simp at hnew

theorem distinctKeys_targetSteps {target : Option Json} (haction : action.DistinctKeys)
    (h : step ∈ targetSteps config tokens target action) : step.DistinctKeys := by
  cases action with
  | add value => exact distinctKeys_addSteps haction h
  | replace value =>
    obtain rfl := List.mem_singleton.1 h
    exact Step.distinctKeys_edit haction _ _
  | remove criteria => exact distinctKeys_removeSteps h

theorem distinctKeys_rootSteps (haction : action.DistinctKeys)
    (hsteps : rootSteps config document action = .ok steps) (h : step ∈ steps) :
    step.DistinctKeys := by
  unfold rootSteps at hsteps
  split at hsteps
  · rw [← Except.ok.inj hsteps] at h
    exact distinctKeys_fieldSteps haction h
  · rw [← Except.ok.inj hsteps] at h
    exact distinctKeys_fieldSteps haction h
  · rw [← Except.ok.inj hsteps] at h
    obtain rfl := List.mem_singleton.1 h
    exact Step.distinctKeys_edit haction _ _
  · simp at hsteps
  · simp at hsteps

theorem distinctKeys_attributeSteps {path : AttributePath} (haction : action.DistinctKeys)
    (hsteps : attributeSteps config document path action = .ok steps) (h : step ∈ steps) :
    step.DistinctKeys := by
  unfold attributeSteps at hsteps
  split at hsteps
  · exact distinctKeys_rootSteps haction hsteps h
  · rw [← Except.ok.inj hsteps] at h
    exact distinctKeys_targetSteps haction h

theorem distinctKeys_selectedSteps {sub : Option AttributePath} {selection : Option Nat × Json}
    (haction : action.DistinctKeys)
    (h : step ∈ selectedSteps config tokens sub action selection) : step.DistinctKeys := by
  cases sub with
  | none =>
    simp only [selectedSteps] at h
    unfold elementSteps at h
    split at h
    · exact distinctKeys_fieldSteps haction h
    · simp at h
    · obtain rfl := List.mem_singleton.1 h
      exact Step.distinctKeys_edit haction _ _
    · split at h
      · obtain rfl := List.mem_singleton.1 h
        trivial
      · obtain rfl := List.mem_singleton.1 h
        intro new hnew
        simp at hnew
  | some sub =>
    simp only [selectedSteps] at h
    unfold subSteps at h
    cases action with
    | add value => exact distinctKeys_addSteps haction h
    | replace value =>
      obtain rfl := List.mem_singleton.1 h
      exact Step.distinctKeys_edit haction _ _
    | remove criteria => exact distinctKeys_removeSteps h

theorem distinctKeys_filteredSteps {text : String} {path : ValuePath} (haction : action.DistinctKeys)
    (hsteps : filteredSteps config document text path action = .ok steps) (h : step ∈ steps) :
    step.DistinctKeys := by
  obtain ⟨selection, -, h⟩ := exists_selected_of_mem hsteps h
  exact distinctKeys_selectedSteps haction h

theorem distinctKeys_actionOf {operation : Operation}
    (hvalue : ∀ value, operation.value = some value → value.DistinctKeys)
    (haction : actionOf operation = .ok action) : action.DistinctKeys := by
  unfold actionOf at haction
  split at haction
  · rename_i value _ hadded
    obtain rfl := Except.ok.inj haction
    exact hvalue value hadded
  · rename_i value _ hreplaced
    obtain rfl := Except.ok.inj haction
    exact hvalue value hreplaced
  · obtain rfl := Except.ok.inj haction
    trivial
  · simp at haction

theorem distinctKeys_operationSteps {operation : Operation}
    (hvalue : ∀ value, operation.value = some value → value.DistinctKeys)
    (hsteps : operationSteps config document operation = .ok steps) (h : step ∈ steps) :
    step.DistinctKeys := by
  obtain ⟨action, haction, hsteps | ⟨text, path, -, -, hsteps⟩⟩ := operationSteps_cases hsteps
  · exact distinctKeys_rootSteps (distinctKeys_actionOf hvalue haction) hsteps h
  · have haction := distinctKeys_actionOf hvalue haction
    cases path with
    | plain path => exact distinctKeys_attributeSteps haction hsteps h
    | filtered path => exact distinctKeys_filteredSteps haction hsteps h

/-- The steps of a batch bring only what its operations bring. -/
theorem distinctKeys_batchSteps {operations : List Operation}
    (hvalues : ∀ operation ∈ operations, ∀ value, operation.value = some value → value.DistinctKeys)
    (hsteps : batchSteps config document operations = .ok steps) (h : step ∈ steps) :
    step.DistinctKeys := by
  obtain ⟨operation, hoperation, own, hown, h⟩ := exists_operation_of_mem hsteps h
  exact distinctKeys_operationSteps (hvalues operation hoperation) hown h

end Patch

end Scim
