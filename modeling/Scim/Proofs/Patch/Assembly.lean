import Scim.Proofs.Patch.Ancestry
import Scim.Proofs.Patch.Selection
import Scim.Proofs.Text.Order

/-!
What a converted batch looks like: first the edits that each operation makes at once, in the order of
the batch, and then the removals of selected elements. These are ordered by the bytes of the array's
pointer, from the end of each array to its beginning, and one is missing exactly if a replacement or
a removal made at once has a pointer at or above the array.
-/
namespace Scim

open Patch

def Operation.emitted (config : Config) (document : Json) (operation : Operation) : List Edit :=
  match operationSteps config document operation with
  | .ok steps => immediate steps
  | .error _ => []

/-- An edit other than an addition has a pointer at or above an array. -/
def Edit.Supersedes (edit : Edit) (array : List String) : Prop :=
  edit.op ≠ .add ∧ ∃ tokens, Pointer.references? edit.pointer = some tokens ∧ tokens <+: array

namespace Patch

/-- A removal comes before another one: the bytes of its array's pointer are less, or the array is
the same and its index is greater. -/
def Removal.Precedes (a b : Removal) : Prop :=
  Text.bytes (Pointer.text a.array) < Text.bytes (Pointer.text b.array) ∨
    a.array = b.array ∧ b.index < a.index

variable {config : Config} {document : Json} {operation : Operation} {removal : Removal}

theorem stage_mem_map_iff {tokens : List String} {test : Json → Bool} {items : List Json} :
    Step.stage removal ∈ (indicesWhere test items).map (fun index => Step.stage ⟨tokens, index⟩) ↔
      removal.array = tokens ∧ ∃ item, items[removal.index]? = some item ∧ test item = true := by
  obtain ⟨array, index⟩ := removal
  simp only [List.mem_map, mem_indicesWhere, Step.stage.injEq, Removal.mk.injEq]
  constructor
  · rintro ⟨_, hitem, rfl, rfl⟩
    exact ⟨rfl, hitem⟩
  · rintro ⟨rfl, hitem⟩
    exact ⟨index, hitem, rfl, rfl⟩

theorem stage_not_mem_fieldSteps {op : PatchOp} {base : List String}
    {existing : Option (List (String × Json))} {fields : List (String × Json)} :
    .stage removal ∉ fieldSteps config op base existing fields := by
  intro h
  obtain ⟨⟨field, value⟩, -, heq⟩ := List.mem_map.1 h
  dsimp only at heq
  split at heq <;> cases heq

theorem stage_not_mem_addSteps {tokens : List String} {target : Option Json} {value : Json} :
    .stage removal ∉ addSteps config tokens target value := by
  unfold addSteps
  split
  · simp
  · simp
  · exact stage_not_mem_fieldSteps
  · simp

theorem stage_not_mem_replaceSteps {tokens : List String} {target : Option Json} {value : Json} :
    .stage removal ∉ replaceSteps tokens target value := by
  simp [replaceSteps]

/-- Criteria stage the elements of an array that satisfy one of them. -/
theorem stage_mem_removeSteps_iff {tokens : List String} {target criteria : Option Json} :
    .stage removal ∈ removeSteps config tokens target criteria ↔
      ∃ items value, target = some (.arr items) ∧ criteria = some value ∧ removal.array = tokens ∧
        ∃ item, items[removal.index]? = some item ∧
          value.elements.any (satisfies config item) = true := by
  unfold removeSteps
  split
  · simp
  · rename_i items value
    simp only [stage_mem_map_iff, Option.some.injEq, Json.arr.injEq, exists_and_left,
      exists_eq_left']
  · rename_i hnot
    constructor
    · simp
    · rintro ⟨items, value, htarget, hcriteria, -⟩
      exact absurd (Option.some.inj htarget) (hnot items value hcriteria)

theorem stage_not_mem_rootSteps {action : Action} {steps : List Step}
    (hsteps : rootSteps config document action = .ok steps) : .stage removal ∉ steps := by
  unfold rootSteps at hsteps
  split at hsteps
  · rw [← Except.ok.inj hsteps]
    exact stage_not_mem_fieldSteps
  · rw [← Except.ok.inj hsteps]
    exact stage_not_mem_fieldSteps
  · rw [← Except.ok.inj hsteps]
    simp
  · simp at hsteps
  · simp at hsteps

theorem stage_mem_attributeSteps_iff {path : AttributePath} {action : Action} {steps : List Step}
    (hsteps : attributeSteps config document path action = .ok steps) :
    .stage removal ∈ steps ↔ ∃ criteria, action = .remove (some criteria) ∧
      removal.array = config.pointer document path ∧ ∃ items item,
        Pointer.lookup (config.pointer document path) document = some (.arr items) ∧
          items[removal.index]? = some item ∧
            criteria.elements.any (satisfies config item) = true := by
  unfold attributeSteps at hsteps
  split at hsteps
  · refine iff_of_false (stage_not_mem_rootSteps hsteps) ?_
    rintro ⟨criteria, rfl, -⟩
    simp [rootSteps] at hsteps
  rename_i token tokens hpointer
  rw [← Except.ok.inj hsteps, hpointer]
  cases action with
  | add value => simp [targetSteps, stage_not_mem_addSteps]
  | replace value => simp [targetSteps, stage_not_mem_replaceSteps]
  | remove criteria =>
    rw [targetSteps, stage_mem_removeSteps_iff]
    constructor
    · rintro ⟨items, value, htarget, rfl, harray, item, hitem, htest⟩
      exact ⟨value, rfl, harray, items, item, htarget, hitem, htest⟩
    · rintro ⟨value, haction, harray, items, item, htarget, hitem, htest⟩
      exact ⟨items, value, htarget, Action.remove.inj haction, harray, item, hitem, htest⟩

theorem stage_not_mem_subSteps {tokens : List String} {element : Json} {sub : AttributePath}
    {action : Action} : .stage removal ∉ subSteps config tokens element sub action := by
  unfold subSteps
  cases action with
  | add value => exact stage_not_mem_addSteps
  | replace value => exact stage_not_mem_replaceSteps
  | remove criteria =>
    rw [stage_mem_removeSteps_iff]
    rintro ⟨_, _, -, hcriteria, -⟩
    cases hcriteria

theorem stage_mem_elementSteps_iff {tokens : List String} {index : Option Nat} {element : Json}
    {action : Action} : .stage removal ∈ elementSteps config tokens index element action ↔
      ∃ criteria, action = .remove criteria ∧ removal.array = tokens ∧ index = some removal.index := by
  obtain ⟨array, position⟩ := removal
  unfold elementSteps
  split
  · simp [stage_not_mem_fieldSteps]
  · simp
  · simp
  · split
    · simp [eq_comm]
    · simp

/-- A filter selects the elements that it is true of. -/
theorem mem_selected_iff {filter : Expression} {target : Option Json} {index : Nat} {item : Json} :
    (some index, item) ∈ selected config filter target ↔ ∃ items, target = some (.arr items) ∧
      items[index]? = some item ∧ config.holds filter item = true := by
  unfold selected
  split
  · simp only [List.mem_map, List.mem_filter, Prod.exists, List.mem_zipIdx_iff_getElem?,
      Prod.mk.injEq, Option.some.injEq, Json.arr.injEq, exists_eq_left']
    constructor
    · rintro ⟨_, _, ⟨hitem, hholds⟩, rfl, rfl⟩
      exact ⟨hitem, hholds⟩
    · rintro ⟨hitem, hholds⟩
      exact ⟨item, index, ⟨hitem, hholds⟩, rfl, rfl⟩
  · split
    · simp
    · simp
  · rename_i target hnot _
    refine iff_of_false (by simp) ?_
    rintro ⟨items, rfl, -⟩
    exact hnot items rfl

/-- A filter without a sub-attribute stages the elements that it selects. -/
theorem stage_mem_filteredSteps_iff {text : String} {path : ValuePath} {action : Action}
    {steps : List Step} (hsteps : filteredSteps config document text path action = .ok steps) :
    .stage removal ∈ steps ↔ path.sub = none ∧ ∃ criteria, action = .remove criteria ∧
      removal.array = config.pointer document path.target ∧ ∃ items item,
        Pointer.lookup (config.pointer document path.target) document = some (.arr items) ∧
          items[removal.index]? = some item ∧ config.holds path.filter item = true := by
  obtain ⟨-, -, rfl⟩ := filteredSteps_eq_ok_iff.1 hsteps
  rw [List.mem_flatMap]
  cases hsub : path.sub with
  | some sub => simp [selectedSteps, stage_not_mem_subSteps]
  | none =>
    simp only [selectedSteps, stage_mem_elementSteps_iff, true_and]
    constructor
    · rintro ⟨⟨_, item⟩, hselected, criteria, rfl, harray, rfl⟩
      obtain ⟨items, htarget, hitem, hholds⟩ := mem_selected_iff.1 hselected
      exact ⟨criteria, rfl, harray, items, item, htarget, hitem, hholds⟩
    · rintro ⟨criteria, haction, harray, items, item, htarget, hitem, hholds⟩
      exact ⟨(some removal.index, item), mem_selected_iff.2 ⟨items, htarget, hitem, hholds⟩,
        criteria, haction, harray, rfl⟩

theorem stages_stage_iff {target : AttributePath} {test : Json → Bool}
    (h : operation.removal? config = some (target, test)) :
    Stages config document operation (.stage removal) ↔
      removal.array = config.pointer document target ∧ ∃ items item,
        document.reach (config.pointer document target) = some (.arr items) ∧
          items[removal.index]? = some item ∧ test item = true := by
  rw [stages_iff h]
  constructor
  · rintro ⟨items, hreach, index, item, hstep, hitem, htest⟩
    obtain rfl := Step.stage.inj hstep
    exact ⟨rfl, items, item, hreach, hitem, htest⟩
  · rintro ⟨harray, items, item, hreach, hitem, htest⟩
    exact ⟨items, hreach, removal.index, item, by rw [← harray], hitem, htest⟩

theorem not_stages (h : operation.removal? config = none) {step : Step} :
    ¬Stages config document operation step := by
  rintro ⟨array, index, items, item, -, -, -, hselects⟩
  simp [Operation.selects, h] at hselects

theorem removal?_of_ne (h : operation.op ≠ .remove) : operation.removal? config = none := by
  unfold Operation.removal?
  split
  · contradiction
  · contradiction
  · rfl

/-- Operations other than removals stage nothing. -/
theorem stage_not_mem_operationSteps {steps : List Step} (hop : operation.op ≠ .remove)
    (hsteps : operationSteps config document operation = .ok steps) : .stage removal ∉ steps := by
  obtain ⟨action, haction, hsteps⟩ := operationSteps_cases hsteps
  have hne : ∀ criteria, action ≠ .remove criteria := by
    unfold actionOf at haction
    split at haction
    · simp [← Except.ok.inj haction]
    · simp [← Except.ok.inj haction]
    · contradiction
    · simp at haction
  obtain hsteps | ⟨text, path, -, -, hsteps⟩ := hsteps
  · exact stage_not_mem_rootSteps hsteps
  · cases path with
    | plain path =>
      rw [stage_mem_attributeSteps_iff hsteps]
      rintro ⟨criteria, haction, -⟩
      exact hne _ haction
    | filtered path =>
      rw [stage_mem_filteredSteps_iff hsteps]
      rintro ⟨-, criteria, haction, -⟩
      exact hne _ haction

/-- A removal that can be converted has a path. -/
theorem exists_path_of_remove {steps : List Step} (hop : operation.op = .remove)
    (hsteps : operationSteps config document operation = .ok steps) :
    ∃ text path, operation.path = some text ∧ PatchPath.parse text = .ok path := by
  obtain ⟨action, haction, hsteps | ⟨text, path, hpath, hparse, -⟩⟩ := operationSteps_cases hsteps
  · obtain rfl := Except.ok.inj ((actionOf_remove hop).symm.trans haction)
    simp [rootSteps] at hsteps
  · exact ⟨text, path, hpath, hparse⟩

/-- An operation stages exactly the removals of the elements that it selects. -/
theorem stage_mem_operationSteps_iff {steps : List Step}
    (hsteps : operationSteps config document operation = .ok steps) :
    .stage removal ∈ steps ↔ Stages config document operation (.stage removal) := by
  by_cases hop : operation.op = .remove
  · -- criteria count behind a plain path only, and a filter only without a sub-attribute
    obtain ⟨text, path, htext, hparse⟩ := exists_path_of_remove hop hsteps
    have hlookup := lookup_target config document hparse
    rw [operationSteps_remove hop htext hparse] at hsteps
    cases path with
    | plain path =>
      simp only [PatchPath.target] at hlookup
      rw [stage_mem_attributeSteps_iff hsteps]
      cases hvalue : operation.value with
      | none =>
        have hremoval : operation.removal? config = none := by
          simp [Operation.removal?, hop, htext, hparse, hvalue]
        exact iff_of_false (by simp) (not_stages hremoval)
      | some criteria =>
        have hremoval : operation.removal? config = some (path, fun item =>
            criteria.elements.any (satisfies config item)) := by
          simp [Operation.removal?, hop, htext, hparse, hvalue]
        rw [stages_stage_iff hremoval, ← hlookup]
        simp
    | filtered path =>
      obtain ⟨target, filter, sub⟩ := path
      simp only [PatchPath.target] at hlookup
      rw [stage_mem_filteredSteps_iff hsteps]
      cases sub with
      | none =>
        have hremoval : operation.removal? config = some (target, config.holds filter) := by
          simp [Operation.removal?, hop, htext, hparse]
        rw [stages_stage_iff hremoval, ← hlookup]
        simp
      | some sub =>
        have hremoval : operation.removal? config = none := by
          simp [Operation.removal?, hop, htext, hparse]
        exact iff_of_false (by simp) (not_stages hremoval)
  · exact iff_of_false (stage_not_mem_operationSteps hop hsteps) (not_stages (removal?_of_ne hop))

theorem immediate_append (steps others : List Step) :
    immediate (steps ++ others) = immediate steps ++ immediate others :=
  List.filterMap_append

/-- A batch makes at once what its operations make at once, in their order. -/
theorem immediate_batchSteps {operations : List Operation} {steps : List Step}
    (hsteps : batchSteps config document operations = .ok steps) :
    immediate steps = operations.flatMap (Operation.emitted config document) := by
  induction operations generalizing steps with
  | nil =>
    obtain rfl := Except.ok.inj hsteps
    rfl
  | cons operation operations ih =>
    obtain ⟨first, hfirst, hsteps⟩ := Except.bind_eq_ok_iff.1 hsteps
    obtain ⟨rest, hrest, hsteps⟩ := Except.bind_eq_ok_iff.1 hsteps
    obtain rfl := Except.ok.inj hsteps
    have hemitted : operation.emitted config document = immediate first := by
      rw [Operation.emitted, hfirst]
    rw [immediate_append, ih hrest, List.flatMap_cons, hemitted]

theorem stage_mem_batchSteps_iff {operations : List Operation} {steps : List Step}
    (hsteps : batchSteps config document operations = .ok steps) :
    .stage removal ∈ steps ↔
      ∃ operation ∈ operations, Stages config document operation (.stage removal) :=
  mem_batchSteps_iff hsteps fun _ _ _ hown => stage_mem_operationSteps_iff hown

theorem supersedes_edit_iff {op : PatchOp} {tokens : List String} {value : Option Json}
    {array : List String} : supersedes array (.edit op tokens value) = true ↔
      Edit.Supersedes ⟨op, Pointer.text tokens, value⟩ array := by
  have hreferences := Pointer.references?_text tokens
  cases op <;> simp [supersedes, Edit.Supersedes, hreferences]

/-- An array is superseded by an edit made at once. -/
theorem any_supersedes_iff {steps : List Step} {array : List String} :
    steps.any (supersedes array) = true ↔ ∃ edit ∈ immediate steps, edit.Supersedes array := by
  rw [List.any_eq_true]
  constructor
  · rintro ⟨step, hstep, hsupersedes⟩
    cases step with
    | edit op tokens value =>
      exact ⟨_, List.mem_filterMap.2 ⟨_, hstep, rfl⟩, supersedes_edit_iff.1 hsupersedes⟩
    | stage removal => simp [supersedes] at hsupersedes
  · rintro ⟨edit, hedit, hsupersedes⟩
    obtain ⟨tokens, hstep, hpointer⟩ := mem_immediate hedit
    refine ⟨_, hstep, supersedes_edit_iff.2 ?_⟩
    rw [← hpointer]
    exact hsupersedes

/-- The test on pointers' texts drops the same removals. -/
theorem supersedes_iff_covers {steps : List Step} {edit : Edit} (hedit : edit ∈ immediate steps)
    {array : List String} : edit.Supersedes array ↔
      edit.op ≠ .add ∧ Pointer.Covers edit.pointer (Pointer.text array) := by
  obtain ⟨tokens, -, hpointer⟩ := mem_immediate hedit
  rw [Edit.Supersedes, hpointer, Pointer.covers_text_iff, Pointer.references?_text]
  simp

theorem precedes_of_order {a b : Removal} (h : a.order b = .lt) : a.Precedes b := by
  rcases Ordering.then_eq_lt.1 h with htext | ⟨htext, hindex⟩
  · exact .inl ((Text.bytes_lt_iff _ _).2 htext)
  · have harray := String.toList_inj.1 ((Text.order_eq_iff _ _).1 htext)
    exact .inr ⟨Pointer.text_injective harray, Nat.compare_eq_lt.1 hindex⟩

/-- Different removals are different edits. -/
theorem edit_injective {a b : Removal} (h : a.edit = b.edit) : a = b := by
  have hplace := Pointer.text_injective (congrArg Edit.pointer h)
  obtain ⟨harray, htoken⟩ := List.append_inj' hplace rfl
  obtain ⟨array, index⟩ := a
  have hindex := Pointer.indexToken_injective (List.singleton_inj.1 htoken)
  exact congr (congrArg Removal.mk harray) hindex

/-- A converted batch: the edits made at once, operation by operation, and behind them the removals
of the selected elements in order, all but those in an array that is replaced or removed. The texts of
pointers tell which ones these are. -/
theorem convert_eq_append {operations : List Operation} {edits : List Edit}
    (hconvert : convert config document operations = .ok edits) :
    ∃ removals : List Removal,
      edits = operations.flatMap (Operation.emitted config document) ++
        removals.map Removal.edit ∧
      removals.Pairwise Removal.Precedes ∧ (removals.map Removal.edit).Nodup ∧
      (∀ removal, removal ∈ removals ↔
        (∃ operation ∈ operations, Stages config document operation (.stage removal)) ∧
          ¬∃ edit ∈ operations.flatMap (Operation.emitted config document),
            edit.Supersedes removal.array) ∧
      ∀ edit ∈ operations.flatMap (Operation.emitted config document), ∀ array,
        edit.Supersedes array ↔
          edit.op ≠ .add ∧ Pointer.Covers edit.pointer (Pointer.text array) := by
  obtain ⟨steps, hsteps, rfl⟩ := Except.map_eq_ok_iff.1 hconvert
  have himmediate := immediate_batchSteps hsteps
  have hordered := ordered_stagedWhere false steps
  refine ⟨stagedWhere false steps, by rw [assemble, himmediate], hordered.imp precedes_of_order, ?_,
    fun removal => ?_, fun edit hedit array => supersedes_iff_covers (himmediate ▸ hedit)⟩
  · have hne : (stagedWhere false steps).Nodup := hordered.imp fun horder heq => by
      simp [heq, Std.ReflCmp.compare_self] at horder
    exact hne.map fun a b => edit_injective
  · rw [← himmediate, ← any_supersedes_iff, ← stage_mem_batchSteps_iff hsteps, stagedWhere,
      List.mem_filter, mem_staged]
    simp

/-- Two arrays of which one has the longer name, and a replacement of the other one. -/
theorem convert_eq_append_sample :
    ∃ document operations edits,
      document = .obj [("membership", .arr [.str "x", .str "y", .str "x"]),
        ("members", .arr [.obj [("type", .str "a")], .str "x"]), ("tags", .arr [.str "x"])] ∧
      operations = [⟨.remove, some "members[type eq \"a\"]", none⟩,
        ⟨.remove, some "tags", some (.str "x")⟩,
        ⟨.replace, some "members", some (.arr [])⟩,
        ⟨.remove, some "membership", some (.arr [.str "x", .str "z"])⟩] ∧
      edits = [⟨.replace, "/members", some (.arr [])⟩, ⟨.remove, "/membership/2", none⟩,
        ⟨.remove, "/membership/0", none⟩, ⟨.remove, "/tags/0", none⟩] ∧
      convert {} document operations = .ok edits ∧
      ∃ removals : List Removal,
        edits = operations.flatMap (Operation.emitted {} document) ++ removals.map Removal.edit ∧
        removals.Pairwise Removal.Precedes ∧ (removals.map Removal.edit).Nodup ∧
        (∀ removal, removal ∈ removals ↔
          (∃ operation ∈ operations, Stages {} document operation (.stage removal)) ∧
            ¬∃ edit ∈ operations.flatMap (Operation.emitted {} document),
              edit.Supersedes removal.array) ∧
        ∀ edit ∈ operations.flatMap (Operation.emitted {} document), ∀ array,
          edit.Supersedes array ↔
            edit.op ≠ .add ∧ Pointer.Covers edit.pointer (Pointer.text array) :=
  ⟨_, _, _, rfl, rfl, rfl, rfl, convert_eq_append rfl⟩

end Patch

end Scim
