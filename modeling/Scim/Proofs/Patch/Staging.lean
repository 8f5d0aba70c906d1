import Mathlib.Data.List.Sort
import Scim.Proofs.Patch.Pointer
import Scim.Proofs.Text.Order

/-!
The steps of a batch: those of its operations, each on the document itself, at a path, or at the
values that a filter selects. The removals that they stage stand in an ordered list without
repetition. The list holds exactly the removals that the steps stage, and removals from one array
stand in it with falling indices.
-/
namespace Scim.Patch

variable {config : Config} {document : Json} {operation : Operation} {operations : List Operation}
  {action : Action} {text : String} {steps : List Step} {step : Step}

theorem actionOf_remove (hop : operation.op = .remove) :
    actionOf operation = .ok (.remove operation.value) := by
  simp [actionOf, hop]

def pathSteps (config : Config) (document : Json) (text : String) (action : Action) :
    PatchPath → Except PatchError (List Step)
  | .plain path => attributeSteps config document path action
  | .filtered path => filteredSteps config document text path action

theorem operationSteps_of_path (hpath : operation.path = some text) (hne : text ≠ "") :
    operationSteps config document operation = actionOf operation >>= fun action =>
      PatchPath.parse text >>= pathSteps config document text action := by
  simp only [operationSteps, hpath, Option.getD_some, hne, if_false]
  refine congrArg _ (funext fun action => congrArg _ (funext fun path => ?_))
  cases path <;> rfl

/-- An operation with steps is one on the document itself, or at a path that can be read. -/
theorem operationSteps_cases (hsteps : operationSteps config document operation = .ok steps) :
    ∃ action, actionOf operation = .ok action ∧
      (rootSteps config document action = .ok steps ∨
        ∃ text path, operation.path = some text ∧ PatchPath.parse text = .ok path ∧
          pathSteps config document text action path = .ok steps) := by
  by_cases hroot : operation.path.getD "" = ""
  · simp only [operationSteps, hroot, if_true] at hsteps
    obtain ⟨action, haction, hsteps⟩ := Except.bind_eq_ok_iff.1 hsteps
    exact ⟨action, haction, .inl hsteps⟩
  · cases hpath : operation.path with
    | none => simp [hpath] at hroot
    | some text =>
      rw [hpath, Option.getD_some] at hroot
      rw [operationSteps_of_path hpath hroot] at hsteps
      obtain ⟨action, haction, hsteps⟩ := Except.bind_eq_ok_iff.1 hsteps
      obtain ⟨path, hparse, hsteps⟩ := Except.bind_eq_ok_iff.1 hsteps
      exact ⟨action, haction, .inr ⟨text, path, rfl, hparse, hsteps⟩⟩

/-- A path with a filter has steps if the filter is legal and no value without fields is added to what
it selects. They are the steps at the selected values, one after the other. -/
theorem filteredSteps_eq_ok_iff {path : ValuePath} :
    filteredSteps config document text path action = .ok steps ↔
      path.filter.check = .ok () ∧
        (addsNoFields path.sub action = true → selected config path.filter
          (Pointer.lookup (config.pointer document path.target) document) = []) ∧
        (selected config path.filter
          (Pointer.lookup (config.pointer document path.target) document)).flatMap
            (selectedSteps config (config.pointer document path.target) path.sub action) = steps := by
  unfold filteredSteps
  cases path.filter.check with
  | error mismatch => simp
  | ok legal =>
    dsimp only
    split
    · rename_i hadds
      simp [hadds.1, hadds.2]
    · rename_i hadds
      have hnone : addsNoFields path.sub action = true → selected config path.filter
          (Pointer.lookup (config.pointer document path.target) document) = [] :=
        fun h => Decidable.not_not.1 fun hne => hadds ⟨h, hne⟩
      simp only [Except.ok.injEq, true_and, and_iff_right hnone]

/-- Every step at a path with a filter is one at a selected value. -/
theorem exists_selected_of_mem {path : ValuePath}
    (hsteps : filteredSteps config document text path action = .ok steps) (h : step ∈ steps) :
    ∃ selection ∈ selected config path.filter
        (Pointer.lookup (config.pointer document path.target) document),
      step ∈ selectedSteps config (config.pointer document path.target) path.sub action selection := by
  obtain ⟨-, -, rfl⟩ := filteredSteps_eq_ok_iff.1 hsteps
  exact List.mem_flatMap.1 h

/-- What is known of the steps of every operation is known of the steps of the batch. -/
theorem mem_batchSteps_iff {produces : Operation → Prop}
    (hsteps : batchSteps config document operations = .ok steps)
    (hown : ∀ operation ∈ operations, ∀ own, operationSteps config document operation = .ok own →
      (step ∈ own ↔ produces operation)) :
    step ∈ steps ↔ ∃ operation ∈ operations, produces operation := by
  induction operations generalizing steps with
  | nil =>
    obtain rfl := Except.ok.inj hsteps
    simp
  | cons operation operations ih =>
    obtain ⟨first, hfirst, hsteps⟩ := Except.bind_eq_ok_iff.1 hsteps
    obtain ⟨rest, hrest, hsteps⟩ := Except.bind_eq_ok_iff.1 hsteps
    obtain rfl := Except.ok.inj hsteps
    have hhead := hown operation List.mem_cons_self first hfirst
    have htail := ih hrest fun other hother => hown other (List.mem_cons_of_mem operation hother)
    rw [List.mem_append, hhead, htail, List.exists_mem_cons_iff]

/-- Every step of a batch is one of an operation. -/
theorem exists_operation_of_mem (hsteps : batchSteps config document operations = .ok steps)
    (h : step ∈ steps) : ∃ operation ∈ operations, ∃ own,
      operationSteps config document operation = .ok own ∧ step ∈ own := by
  refine (mem_batchSteps_iff hsteps fun operation _ own hown => ?_).1 h
  constructor
  · exact fun hstep => ⟨own, hown, hstep⟩
  · rintro ⟨other, hother, hstep⟩
    obtain rfl := Except.ok.inj (hown.symm.trans hother)
    exact hstep

/-- An edit made at once is a step with its tokens spelled. -/
theorem mem_immediate {steps : List Step} {edit : Edit} (h : edit ∈ immediate steps) :
    ∃ tokens, .edit edit.op tokens edit.value ∈ steps ∧ edit.pointer = Pointer.text tokens := by
  obtain ⟨step, hstep, heq⟩ := List.mem_filterMap.1 h
  cases step with
  | edit op tokens value =>
    obtain rfl := Option.some.inj heq
    exact ⟨tokens, hstep, rfl⟩
  | stage removal => simp at heq

/-- A batch of one operation has the steps of this operation. -/
theorem convert_singleton (hsteps : operationSteps config document operation = .ok steps) :
    convert config document [operation] = .ok (assemble steps) := by
  have hbatch : batchSteps config document [operation] = .ok (steps ++ []) := by
    rw [batchSteps, hsteps]
    rfl
  rw [convert, hbatch, List.append_nil, Except.map]

namespace Removal

instance : Std.TransCmp Removal.order := by
  have hfirst : Std.TransCmp fun a b : Removal =>
      Text.order (Pointer.text a.array).toList (Pointer.text b.array).toList :=
    { eq_swap := Std.OrientedCmp.eq_swap
      isLE_trans := Std.TransCmp.isLE_trans }
  have hsecond : Std.TransCmp fun a b : Removal => compare b.index a.index :=
    { eq_swap := Std.OrientedCmp.eq_swap
      isLE_trans := flip Std.TransCmp.isLE_trans }
  exact inferInstanceAs (Std.TransCmp (compareLex
    (fun a b : Removal => Text.order (Pointer.text a.array).toList (Pointer.text b.array).toList)
    (fun a b : Removal => compare b.index a.index)))

/-- The order tells different removals apart. -/
theorem eq_of_order_eq {a b : Removal} (h : a.order b = .eq) : a = b := by
  obtain ⟨htext, hindex⟩ := Ordering.then_eq_eq.1 h
  have harray := Pointer.text_injective (String.toList_inj.1 ((Text.order_eq_iff _ _).1 htext))
  have hindex := Nat.compare_eq_eq.1 hindex
  obtain ⟨array, index⟩ := a
  exact congr (congrArg Removal.mk harray) hindex.symm

/-- Of two removals from one array the one that comes first has the greater index. -/
theorem index_lt_of_order {a b : Removal} (h : a.order b = .lt) (harray : a.array = b.array) :
    b.index < a.index := by
  have htext : Text.order (Pointer.text a.array).toList (Pointer.text b.array).toList = .eq := by
    rw [harray]
    exact (Text.order_eq_iff _ _).2 rfl
  rw [order, htext] at h
  exact Nat.compare_eq_lt.1 h

def Ordered (removals : List Removal) : Prop := removals.Pairwise fun a b => a.order b = .lt

theorem mem_insert {removal other : Removal} {removals : List Removal} :
    other ∈ removal.insert removals ↔ other = removal ∨ other ∈ removals := by
  induction removals with
  | nil => simp [insert]
  | cons first rest ih =>
    rw [insert]
    cases horder : removal.order first with
    | lt => simp
    | eq =>
      obtain rfl := eq_of_order_eq horder
      simp
    | gt =>
      simp only [List.mem_cons, ih]
      exact or_left_comm

theorem ordered_insert {removals : List Removal} (h : Ordered removals) (removal : Removal) :
    Ordered (removal.insert removals) := by
  induction removals with
  | nil => exact List.pairwise_singleton _ _
  | cons first rest ih =>
    obtain ⟨hfirst, hrest⟩ := List.pairwise_cons.1 h
    rw [insert]
    cases horder : removal.order first with
    | lt =>
      refine List.pairwise_cons.2 ⟨fun other hother => ?_, h⟩
      rcases List.mem_cons.1 hother with rfl | hother
      · exact horder
      · exact Std.TransCmp.lt_trans horder (hfirst other hother)
    | eq => exact h
    | gt =>
      refine List.pairwise_cons.2 ⟨fun other hother => ?_, ih hrest⟩
      rcases mem_insert.1 hother with rfl | hother
      · exact Std.OrientedCmp.lt_of_gt horder
      · exact hfirst other hother

/-- The order leaves one list for the same removals. -/
theorem Ordered.eq_of_mem_iff {removals others : List Removal} (h : Ordered removals)
    (hothers : Ordered others) (hmem : ∀ removal, removal ∈ removals ↔ removal ∈ others) :
    removals = others := by
  have hirrefl : Std.Irrefl fun a b : Removal => a.order b = .lt :=
    ⟨fun a ha => by simp [Std.ReflCmp.compare_self] at ha⟩
  have hantisymm : Std.Antisymm fun a b : Removal => a.order b = .lt :=
    ⟨fun a b hab hba => by simp [Std.OrientedCmp.gt_of_lt hab] at hba⟩
  exact List.Pairwise.eq_of_mem_iff h hothers hmem

end Removal

def Step.collect (found : List Removal) : Step → List Removal
  | .edit _ _ _ => found
  | .stage removal => removal.insert found

theorem staged_eq_foldl (steps : List Step) : staged steps = steps.foldl Step.collect [] := rfl

theorem mem_foldl_collect {removal : Removal} (steps : List Step) (found : List Removal) :
    removal ∈ steps.foldl Step.collect found ↔ removal ∈ found ∨ .stage removal ∈ steps := by
  induction steps generalizing found with
  | nil => simp
  | cons step steps ih =>
    rw [List.foldl_cons, ih]
    cases step with
    | edit op tokens value => simp [Step.collect]
    | stage first =>
      simp only [Step.collect, Removal.mem_insert, List.mem_cons, Step.stage.injEq]
      exact ⟨by rintro ((h | h) | h) <;> simp [h], by rintro (h | h | h) <;> simp [h]⟩

/-- The staged removals are those of the steps. -/
theorem mem_staged {removal : Removal} {steps : List Step} :
    removal ∈ staged steps ↔ .stage removal ∈ steps := by
  rw [staged_eq_foldl, mem_foldl_collect]
  simp

theorem ordered_foldl_collect (steps : List Step) {found : List Removal}
    (h : Removal.Ordered found) : Removal.Ordered (steps.foldl Step.collect found) := by
  induction steps generalizing found with
  | nil => exact h
  | cons step steps ih =>
    cases step with
    | edit op tokens value => exact ih h
    | stage removal => exact ih (Removal.ordered_insert h removal)

/-- They are in order and without repetition. -/
theorem ordered_staged (steps : List Step) : Removal.Ordered (staged steps) :=
  ordered_foldl_collect steps List.Pairwise.nil

/-- What the final list keeps is still in order. -/
theorem ordered_stagedWhere (superseded : Bool) (steps : List Step) :
    Removal.Ordered (stagedWhere superseded steps) :=
  List.Pairwise.filter _ (ordered_staged steps)

/-- Steps that stage no removal come down to the edits that they make at once. -/
theorem assemble_of_not_staged (h : ∀ removal, .stage removal ∉ steps) :
    assemble steps = immediate steps := by
  have hstaged : stagedWhere false steps = [] := by
    apply List.eq_nil_iff_forall_not_mem.2
    intro removal hremoval
    exact h removal (mem_staged.1 (List.mem_filter.1 hremoval).1)
  rw [assemble, hstaged, List.map_nil, List.append_nil]

theorem assemble_map_edit {α : Type} (op : α → PatchOp) (tokens : α → List String)
    (value : α → Option Json) (all : List α) :
    assemble (all.map fun a => .edit (op a) (tokens a) (value a)) =
      all.map fun a => ⟨op a, Pointer.text (tokens a), value a⟩ := by
  have hstage : ∀ removal,
      .stage removal ∉ all.map fun a => Step.edit (op a) (tokens a) (value a) := by simp
  rw [assemble_of_not_staged hstage, immediate, List.filterMap_map, ← List.filterMap_eq_map]
  rfl

end Scim.Patch
