import Scim.Proofs.Patch.Removal
import Scim.Proofs.Patch.ValuePath

/-!
Operations that remove elements of arrays, by a filter in the path or by criteria. Main statement: a
batch of them, converted and applied, takes exactly the selected elements out of the document.
-/
namespace Scim

open Patch

/-- The attribute whose elements an operation removes, and the test that selects them: the filter of
its path, or its criteria. -/
def Operation.removal? (config : Config) (operation : Operation) :
    Option (AttributePath × (Json → Bool)) :=
  match operation.op, operation.path.map PatchPath.parse, operation.value with
  | .remove, some (.ok (.filtered ⟨target, filter, none⟩)), _ => some (target, config.holds filter)
  | .remove, some (.ok (.plain target)), some criteria =>
    some (target, fun item => criteria.elements.any (satisfies config item))
  | _, _, _ => none

/-- An operation removes elements of an array that its attribute leads to through members, if it
leads to anything. -/
def Operation.RemovesElements (config : Config) (document : Json) (operation : Operation) : Prop :=
  ∃ target test, operation.removal? config = some (target, test) ∧
    ∀ value, document.reach (config.pointer document target) = some value →
      ∃ items, value = .arr items

def Operation.selects (config : Config) (document : Json) (array : List String) (item : Json)
    (operation : Operation) : Bool :=
  match operation.removal? config with
  | some (target, test) => config.pointer document target == array && test item
  | none => false

namespace Patch

def Stages (config : Config) (document : Json) (operation : Operation) (step : Step) : Prop :=
  ∃ array index items item, step = .stage ⟨array, index⟩ ∧
    document.reach array = some (.arr items) ∧ items[index]? = some item ∧
    operation.selects config document array item = true

/-- The steps that stage the selected elements of an array that may be missing. -/
theorem mem_steps_iff {step : Step} {steps : List Step} {array : List String} {test : Json → Bool}
    {found : Option Json} (hfound : ∀ value, found = some value → ∃ items, value = .arr items)
    (hnone : found = none → steps = [])
    (hsome : ∀ items, found = some (.arr items) →
      steps = (indicesWhere test items).map fun index => .stage ⟨array, index⟩) :
    step ∈ steps ↔ ∃ items, found = some (.arr items) ∧ ∃ index item,
      step = .stage ⟨array, index⟩ ∧ items[index]? = some item ∧ test item = true := by
  cases found with
  | none => simp [hnone rfl]
  | some value =>
    obtain ⟨items, rfl⟩ := hfound value rfl
    simp only [hsome items rfl, List.mem_map, mem_indicesWhere]
    constructor
    · rintro ⟨index, ⟨item, hitem, htest⟩, rfl⟩
      exact ⟨items, rfl, index, item, rfl, hitem, htest⟩
    · rintro ⟨_, hitems, index, item, rfl, hitem, htest⟩
      obtain rfl := Json.arr.inj (Option.some.inj hitems)
      exact ⟨index, ⟨item, hitem, htest⟩, rfl⟩

/-- The steps of a removal by filter. -/
theorem flatMap_selected_arr (config : Config) (filter : Expression) (array : List String)
    (items : List Json) (criteria : Option Json) :
    (selected config filter (some (.arr items))).flatMap
        (selectedSteps config array none (.remove criteria)) =
      (indicesWhere (config.holds filter) items).map fun index => Step.stage ⟨array, index⟩ := by
  simp only [selected, indicesWhere, List.flatMap_map, List.map_map]
  rw [List.map_eq_flatMap]
  rfl

variable {config : Config} {document : Json} {operation : Operation}

theorem stages_iff {target : AttributePath} {test : Json → Bool}
    (h : operation.removal? config = some (target, test)) {step : Step} :
    Stages config document operation step ↔
      ∃ items, document.reach (config.pointer document target) = some (.arr items) ∧
        ∃ index item, step = .stage ⟨config.pointer document target, index⟩ ∧
          items[index]? = some item ∧ test item = true := by
  simp only [Stages, Operation.selects, h, Bool.and_eq_true, beq_iff_eq]
  constructor
  · rintro ⟨array, index, items, item, rfl, hreach, hitem, rfl, htest⟩
    exact ⟨items, hreach, index, item, rfl, hitem, htest⟩
  · rintro ⟨items, hreach, index, item, rfl, hitem, htest⟩
    exact ⟨_, index, items, item, rfl, hreach, hitem, rfl, htest⟩

theorem operationSteps_remove {text : String} {path : PatchPath} (hop : operation.op = .remove)
    (hpath : operation.path = some text) (hparse : PatchPath.parse text = .ok path) :
    operationSteps config document operation =
      pathSteps config document text (.remove operation.value) path := by
  rw [operationSteps_of_path hpath (PatchPath.ne_empty_of_parse hparse), actionOf_remove hop, hparse]
  rfl

/-- An operation that removes elements does nothing but stage their removals. -/
theorem mem_operationSteps {steps : List Step}
    (hremoves : operation.RemovesElements config document)
    (hsteps : operationSteps config document operation = .ok steps) {step : Step} :
    step ∈ steps ↔ Stages config document operation step := by
  obtain ⟨target, test, hremoval, htarget⟩ := hremoves
  rw [stages_iff hremoval]
  unfold Operation.removal? at hremoval
  split at hremoval
  · rename_i path filter hop hmap
    obtain ⟨rfl, rfl⟩ := Prod.mk.inj (Option.some.inj hremoval)
    obtain ⟨text, hpath, hparse⟩ := Option.map_eq_some_iff.1 hmap
    have hlookup : Pointer.lookup (config.pointer document path) document =
        document.reach (config.pointer document path) := lookup_target config document hparse
    rw [operationSteps_remove hop hpath hparse] at hsteps
    obtain ⟨-, -, rfl⟩ := filteredSteps_eq_ok_iff.1 hsteps
    refine mem_steps_iff htarget (fun hnone => ?_) fun items hitems => ?_
    · rw [hlookup.trans hnone]
      rfl
    · rw [hlookup.trans hitems]
      exact flatMap_selected_arr config filter _ items operation.value
  · rename_i path criteria hop hmap hvalue
    obtain ⟨rfl, rfl⟩ := Prod.mk.inj (Option.some.inj hremoval)
    obtain ⟨text, hpath, hparse⟩ := Option.map_eq_some_iff.1 hmap
    have hlookup : Pointer.lookup (config.pointer document path) document =
        document.reach (config.pointer document path) := lookup_target config document hparse
    rw [operationSteps_remove hop hpath hparse] at hsteps
    simp only [pathSteps, attributeSteps] at hsteps
    split at hsteps
    · simp [rootSteps] at hsteps
    rename_i token tokens hpointer
    rw [← hpointer, hvalue] at hsteps
    rw [← Except.ok.inj hsteps]
    refine mem_steps_iff htarget (fun hnone => ?_) fun items hitems => ?_
    · rw [hlookup.trans hnone]
      rfl
    · rw [hlookup.trans hitems]
      rfl
  · simp at hremoval

theorem mem_batchSteps {operations : List Operation} {steps : List Step}
    (hremoves : ∀ operation ∈ operations, operation.RemovesElements config document)
    (hsteps : batchSteps config document operations = .ok steps) {step : Step} :
    step ∈ steps ↔ ∃ operation ∈ operations, Stages config document operation step :=
  mem_batchSteps_iff hsteps fun operation hoperation _ hown =>
    mem_operationSteps (hremoves operation hoperation) hown

/-- Steps that only stage removals come down to these removals. -/
theorem assemble_of_stages {steps : List Step}
    (h : ∀ step ∈ steps, ∃ removal, step = .stage removal) :
    assemble steps = (staged steps).map Removal.edit := by
  have himmediate : immediate steps = [] := by
    refine List.filterMap_eq_nil_iff.2 fun step hstep => ?_
    obtain ⟨removal, rfl⟩ := h step hstep
    rfl
  have hsupersedes : ∀ array, steps.any (supersedes array) = false := by
    refine fun array => List.any_eq_false.2 fun step hstep => ?_
    obtain ⟨removal, rfl⟩ := h step hstep
    simp [supersedes]
  have hall : stagedWhere false steps = staged steps := by
    refine List.filter_eq_self.2 fun removal _ => ?_
    rw [hsupersedes]
    rfl
  rw [assemble, himmediate, hall, List.nil_append]

/-- A batch that removes elements of arrays by filters and criteria can be applied, and then exactly
the elements are gone that one of its operations selects. -/
theorem applyAll_convert_removals {operations : List Operation} {edits : List Edit}
    (hremoves : ∀ operation ∈ operations, operation.RemovesElements config document)
    (hconvert : convert config document operations = .ok edits) :
    Edit.applyAll edits document =
      .ok (document.mapArrays fun array items => items.filter fun item =>
        !operations.any (Operation.selects config document array item)) := by
  obtain ⟨steps, hsteps, rfl⟩ := Except.map_eq_ok_iff.1 hconvert
  have hmem : ∀ step, step ∈ steps ↔ ∃ operation ∈ operations,
      Stages config document operation step := fun _ => mem_batchSteps hremoves hsteps
  have hstages : ∀ step ∈ steps, ∃ removal, step = .stage removal := by
    intro step hstep
    obtain ⟨_, -, array, index, -, -, rfl, -⟩ := (hmem step).1 hstep
    exact ⟨_, rfl⟩
  have hfits : ∀ removal ∈ staged steps, removal.Fits document := by
    intro removal hremoval
    obtain ⟨_, -, array, index, items, item, hstep, hreach, hitem, -⟩ :=
      (hmem _).1 (mem_staged.1 hremoval)
    obtain rfl := Step.stage.inj hstep
    exact ⟨items, hreach, (List.getElem?_eq_some_iff.1 hitem).1⟩
  rw [assemble_of_stages hstages, applyAll_removals (ordered_staged steps) hfits]
  refine congrArg Except.ok (Json.mapArrays_congr fun array items hreach => ?_)
  refine keep_eq_filter fun index item hitem => ?_
  rw [Bool.eq_iff_iff, List.contains_iff_mem, mem_staged, hmem, List.any_eq_true]
  refine exists_congr fun operation => and_congr_right fun _ => ?_
  constructor
  · rintro ⟨_, _, items', item', hstep, hreach', hitem', hselects⟩
    obtain ⟨rfl, rfl⟩ := Removal.mk.inj (Step.stage.inj hstep)
    obtain rfl := Json.arr.inj (Option.some.inj (hreach.symm.trans hreach'))
    obtain rfl := Option.some.inj (hitem.symm.trans hitem')
    exact hselects
  · exact fun hselects => ⟨array, index, items, item, rfl, hreach, hitem, hselects⟩

/-- A filter and criteria that select overlapping elements of one array. -/
theorem applyAll_convert_removals_overlapping :
    ∃ document operations edits,
      document = .obj [("mails", .arr [.obj [("type", .str "w"), ("n", .num "1")],
        .obj [("type", .str "h")], .obj [("n", .num "2")], .str "x"]), ("n", .arr [.str "x"])] ∧
      operations = [⟨.remove, some "Mails[type eq \"w\" or n gt 1]", none⟩,
        ⟨.remove, some "mails", some (.arr [.obj [("type", .str "w"), ("n", .num "1")], .str "x"])⟩] ∧
      (∀ operation ∈ operations, Operation.RemovesElements {} document operation) ∧
      convert {} document operations = .ok edits ∧
      Edit.applyAll edits document =
        .ok (.obj [("mails", .arr [.obj [("type", .str "h")]]), ("n", .arr [.str "x"])]) := by
  have hremoves : ∀ operation ∈ [
      (⟨.remove, some "Mails[type eq \"w\" or n gt 1]", none⟩ : Operation),
      ⟨.remove, some "mails", some (.arr [.obj [("type", .str "w"), ("n", .num "1")], .str "x"])⟩],
      Operation.RemovesElements {} (.obj [("mails", .arr [.obj [("type", .str "w"), ("n", .num "1")],
        .obj [("type", .str "h")], .obj [("n", .num "2")], .str "x"]), ("n", .arr [.str "x"])])
        operation := by
    intro operation hoperation
    rcases List.mem_cons.1 hoperation with rfl | hoperation
    · exact ⟨_, _, rfl, fun value hvalue => ⟨_, (Option.some.inj hvalue).symm⟩⟩
    · obtain rfl := List.mem_singleton.1 hoperation
      exact ⟨_, _, rfl, fun value hvalue => ⟨_, (Option.some.inj hvalue).symm⟩⟩
  exact ⟨_, _, _, rfl, rfl, hremoves, rfl, applyAll_convert_removals hremoves rfl⟩

end Patch

end Scim
