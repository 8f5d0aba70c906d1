import Scim.Proofs.Patch.Division
import Scim.Proofs.Patch.ValuePath

/-!
An operation reads and changes one place of the document. Its steps depend on the document only
through the tokens that its path becomes there and the value that they lead to, and every step goes
to this place or below it. So the edits of operations divide by the first names of their paths.
-/
namespace Scim

open Patch AttributePath

/-- The first name that the path of an operation leads to. The path of a core schema alone has none,
and neither has a path that cannot be read. -/
def Operation.rootName? (config : Config) (operation : Operation) : Option String :=
  match operation.path.map PatchPath.parse with
  | some (.ok path) => (config.names path.target).head?
  | _ => none

/-- An operation has a path, and this leads to a member of the document if it can be read. -/
def Operation.NamesMember (config : Config) (operation : Operation) : Prop :=
  ∃ text, operation.path = some text ∧ text ≠ "" ∧
    ∀ path, PatchPath.parse text = .ok path → config.names path.target ≠ []

namespace Patch

def Step.base : Step → List String
  | .edit _ tokens _ => tokens
  | .stage removal => removal.array

variable {config : Config} {document other : Json} {operation : Operation}
  {operations : List Operation} {steps : List Step} {step : Step} {tokens : List String}

theorem prefix_base_fieldSteps {op : PatchOp} {existing : Option (List (String × Json))}
    {fields : List (String × Json)} (h : step ∈ fieldSteps config op tokens existing fields) :
    tokens <+: step.base := by
  obtain ⟨⟨field, value⟩, -, rfl⟩ := List.mem_map.1 h
  dsimp only
  split
  · exact List.prefix_append tokens _
  · exact List.prefix_append tokens _

theorem prefix_base_addSteps {target : Option Json} {value : Json}
    (h : step ∈ addSteps config tokens target value) : tokens <+: step.base := by
  unfold addSteps at h
  split at h
  · obtain ⟨item, -, rfl⟩ := List.mem_map.1 h
    exact List.prefix_append tokens _
  · obtain rfl := List.mem_singleton.1 h
    exact List.prefix_append tokens _
  · exact prefix_base_fieldSteps h
  · obtain rfl := List.mem_singleton.1 h
    exact List.prefix_refl tokens

theorem prefix_base_replaceSteps {target : Option Json} {value : Json}
    (h : step ∈ replaceSteps tokens target value) : tokens <+: step.base := by
  obtain rfl := List.mem_singleton.1 h
  exact List.prefix_refl tokens

theorem prefix_base_removeSteps {target criteria : Option Json}
    (h : step ∈ removeSteps config tokens target criteria) : tokens <+: step.base := by
  unfold removeSteps at h
  split at h
  · simp at h
  · obtain ⟨index, -, rfl⟩ := List.mem_map.1 h
    exact List.prefix_refl tokens
  · obtain rfl := List.mem_singleton.1 h
    exact List.prefix_refl tokens

theorem prefix_base_targetSteps {target : Option Json} {action : Action}
    (h : step ∈ targetSteps config tokens target action) : tokens <+: step.base := by
  cases action with
  | add value => exact prefix_base_addSteps h
  | replace value => exact prefix_base_replaceSteps h
  | remove criteria => exact prefix_base_removeSteps h

theorem prefix_base_attributeSteps {path : AttributePath} {action : Action}
    (hsteps : attributeSteps config document path action = .ok steps) (h : step ∈ steps) :
    config.pointer document path <+: step.base := by
  unfold attributeSteps at hsteps
  split at hsteps
  · rename_i hpointer
    rw [hpointer]
    exact List.nil_prefix
  · rename_i hpointer
    rw [← Except.ok.inj hsteps] at h
    rw [hpointer]
    exact prefix_base_targetSteps h

theorem prefix_elementTokens (tokens : List String) (index : Option Nat) :
    tokens <+: elementTokens tokens index := by
  cases index with
  | none => exact List.prefix_refl tokens
  | some index => exact List.prefix_append tokens _

theorem prefix_base_elementSteps {index : Option Nat} {element : Json} {action : Action}
    (h : step ∈ elementSteps config tokens index element action) : tokens <+: step.base := by
  unfold elementSteps at h
  split at h
  · exact (prefix_elementTokens tokens index).trans (prefix_base_fieldSteps h)
  · simp at h
  · obtain rfl := List.mem_singleton.1 h
    exact prefix_elementTokens tokens index
  · split at h
    · obtain rfl := List.mem_singleton.1 h
      exact List.prefix_refl tokens
    · obtain rfl := List.mem_singleton.1 h
      exact List.prefix_refl tokens

theorem prefix_base_subSteps {element : Json} {sub : AttributePath} {action : Action}
    (h : step ∈ subSteps config tokens element sub action) : tokens <+: step.base := by
  refine (List.prefix_append tokens (config.pointer element sub)).trans ?_
  unfold subSteps at h
  cases action with
  | add value => exact prefix_base_addSteps h
  | replace value => exact prefix_base_replaceSteps h
  | remove criteria => exact prefix_base_removeSteps h

theorem prefix_base_filteredSteps {text : String} {path : ValuePath} {action : Action}
    (hsteps : filteredSteps config document text path action = .ok steps) (h : step ∈ steps) :
    config.pointer document path.target <+: step.base := by
  obtain ⟨⟨index, element⟩, -, h⟩ := exists_selected_of_mem hsteps h
  unfold selectedSteps at h
  split at h
  · exact prefix_base_elementSteps h
  · exact (prefix_elementTokens _ index).trans (prefix_base_subSteps h)

/-- All steps of an operation go to the place of its path or below it. -/
theorem prefix_base_pathSteps {text : String} {path : PatchPath} {action : Action}
    (hsteps : pathSteps config document text action path = .ok steps) (h : step ∈ steps) :
    config.pointer document path.target <+: step.base := by
  cases path with
  | plain path => exact prefix_base_attributeSteps hsteps h
  | filtered path => exact prefix_base_filteredSteps hsteps h

/-- A path that was read leads to a name. -/
theorem exists_names_cons (h : operation.NamesMember config) {text : String} {path : PatchPath}
    (hpath : operation.path = some text) (hparse : PatchPath.parse text = .ok path) :
    ∃ name names, config.names path.target = name :: names ∧
      operation.rootName? config = some name ∧ LeadsName name := by
  obtain ⟨text', hpath', -, hnames⟩ := h
  obtain rfl := Option.some.inj (hpath.symm.trans hpath')
  obtain ⟨name, names, hcons⟩ := List.exists_cons_of_ne_nil (hnames path hparse)
  obtain ⟨⟨targetText, htarget⟩, -⟩ := PatchPath.parse_eq_ok hparse
  have hname : name ∈ config.names path.target := by
    rw [hcons]
    exact List.mem_cons_self
  refine ⟨name, names, hcons, ?_, Config.leadsName_of_mem_names htarget hname⟩
  simp only [Operation.rootName?, hpath, Option.map_some, hparse, hcons, List.head?_cons]

/-- The steps of an operation go to or below the member of its first name. -/
theorem exists_base_cons (hnames : operation.NamesMember config)
    (hsteps : operationSteps config document operation = .ok steps) (h : step ∈ steps) :
    ∃ name key rest, operation.rootName? config = some name ∧ step.base = key :: rest ∧
      Text.sameFolded key name = true ∧ LeadsName key := by
  obtain ⟨text, hpath, hne, -⟩ := id hnames
  rw [operationSteps_of_path hpath hne] at hsteps
  obtain ⟨action, -, hsteps⟩ := Except.bind_eq_ok_iff.1 hsteps
  obtain ⟨path, hparse, hsteps⟩ := Except.bind_eq_ok_iff.1 hsteps
  obtain ⟨name, names, hcons, hroot, hname⟩ := exists_names_cons hnames hpath hparse
  obtain ⟨key, rest, htokens, hkey⟩ := config.exists_tokens_cons name names (some document)
  obtain ⟨below, hbelow⟩ := prefix_base_pathSteps hsteps h
  rw [Config.pointer, hcons, htokens, List.cons_append] at hbelow
  exact ⟨name, key, _, hroot, hbelow.symm, hkey, hname.of_sameFolded hkey⟩

theorem attributeSteps_congr {path : AttributePath} (action : Action)
    (hne : config.pointer document path ≠ [])
    (hpointer : config.pointer document path = config.pointer other path)
    (hlookup : Pointer.lookup (config.pointer document path) document =
      Pointer.lookup (config.pointer other path) other) :
    attributeSteps config document path action = attributeSteps config other path action := by
  obtain ⟨token, tokens, hcons⟩ := List.exists_cons_of_ne_nil hne
  have hcons' := hpointer.symm.trans hcons
  rw [hcons, hcons'] at hlookup
  simp only [attributeSteps, hcons, hcons', hlookup]

theorem filteredSteps_congr {path : ValuePath} (text : String) (action : Action)
    (hpointer : config.pointer document path.target = config.pointer other path.target)
    (hlookup : Pointer.lookup (config.pointer document path.target) document =
      Pointer.lookup (config.pointer other path.target) other) :
    filteredSteps config document text path action =
      filteredSteps config other text path action := by
  rw [hpointer] at hlookup
  simp only [filteredSteps, hpointer, hlookup]

def AgreeOn (config : Config) (left right : List (String × Json)) (name : String) : Prop :=
  config.member? left name = config.member? right name ∧
    ∀ key, Text.sameFolded key name = true → Members.find? key left = Members.find? key right

/-- A path finds the same in documents that agree on its first name. -/
theorem AgreeOn.lookup_pointer {left right : List (String × Json)} {name : String}
    {names : List String} {path : AttributePath} (h : AgreeOn config left right name)
    (hnames : config.names path = name :: names) :
    config.pointer (.obj left) path = config.pointer (.obj right) path ∧
      Pointer.lookup (config.pointer (.obj left) path) (.obj left) =
        Pointer.lookup (config.pointer (.obj right) path) (.obj right) := by
  obtain ⟨hmember, hfind⟩ := h
  have hpointer : config.pointer (.obj left) path = config.pointer (.obj right) path := by
    rw [Config.pointer, Config.pointer, hnames, Config.tokens_congr hmember]
  obtain ⟨key, rest, htokens, hkey⟩ := config.exists_tokens_cons name names (some (.obj right))
  refine ⟨hpointer, ?_⟩
  rw [hpointer, Config.pointer, hnames, htokens, Pointer.lookup, Pointer.lookup, hfind key hkey]

theorem pathSteps_congr {path : PatchPath} (text : String) (action : Action)
    (hne : config.pointer document path.target ≠ [])
    (hpointer : config.pointer document path.target = config.pointer other path.target)
    (hlookup : Pointer.lookup (config.pointer document path.target) document =
      Pointer.lookup (config.pointer other path.target) other) :
    pathSteps config document text action path = pathSteps config other text action path := by
  cases path with
  | plain path => exact attributeSteps_congr action hne hpointer hlookup
  | filtered path => exact filteredSteps_congr text action hpointer hlookup

/-- The steps of an operation depend on the member that it names alone. -/
theorem operationSteps_congr {left right : List (String × Json)}
    (hnames : operation.NamesMember config)
    (h : ∀ name, operation.rootName? config = some name → AgreeOn config left right name) :
    operationSteps config (.obj left) operation = operationSteps config (.obj right) operation := by
  obtain ⟨text, hpath, hne, hsome⟩ := id hnames
  rw [operationSteps_of_path hpath hne, operationSteps_of_path hpath hne]
  refine congrArg _ (funext fun action => ?_)
  cases hparse : PatchPath.parse text with
  | error error => rfl
  | ok path =>
    obtain ⟨name, names, hcons, hroot, -⟩ := exists_names_cons hnames hpath hparse
    obtain ⟨hpointer, hlookup⟩ := (h name hroot).lookup_pointer hcons
    exact pathSteps_congr text action (Config.tokens_ne_nil (hsome path hparse) _) hpointer hlookup

theorem batchSteps_congr (h : ∀ operation ∈ operations,
      operationSteps config document operation = operationSteps config other operation) :
    batchSteps config document operations = batchSteps config other operations := by
  induction operations with
  | nil => rfl
  | cons operation operations ih =>
    rw [batchSteps, batchSteps, h operation List.mem_cons_self,
      ih fun next hnext => h next (List.mem_cons_of_mem operation hnext)]

theorem batchSteps_append (others : List Operation) :
    batchSteps config document (operations ++ others) =
      batchSteps config document operations >>= fun first =>
        (batchSteps config document others).map fun second => first ++ second := by
  induction operations with
  | nil => cases hothers : batchSteps config document others <;> simp [batchSteps, hothers] <;> rfl
  | cons operation operations ih =>
    rw [List.cons_append, batchSteps, batchSteps, ih]
    cases operationSteps config document operation with
    | error error => rfl
    | ok own =>
      cases batchSteps config document operations with
      | error error => rfl
      | ok first =>
        cases batchSteps config document others with
        | error error => rfl
        | ok second => exact congrArg Except.ok (List.append_assoc own first second).symm

end Patch

end Scim
