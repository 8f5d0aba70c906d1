import Scim.Proofs.Patch.Removal
import Scim.Proofs.Patch.ValuePath

/-!
Where the steps of a conversion point to. Every token on the way is a name or the index of an
element, never another spelling of an index; a removal made at once ends with a name; and a staged
removal names an element of an array that the document reaches through members.
-/
namespace Scim.Patch

open AttributePath

/-- The place of a step, resolved against a document. The last token of an addition may be any
field. -/
inductive Placed (document : Json) : Step → Prop
  | add {base : List String} {last : String} {value : Option Json}
      (hbase : ∀ token ∈ base, Plain token) : Placed document (.edit .add (base ++ [last]) value)
  | replace {tokens : List String} {value : Option Json} (htokens : ∀ token ∈ tokens, Plain token) :
      Placed document (.edit .replace tokens value)
  | replaceField {key : String} {value : Option Json} {members : List (String × Json)}
      (hdocument : document = .obj members) : Placed document (.edit .replace [key] value)
  | remove {base : List String} {name : String} {value : Option Json}
      (hbase : ∀ token ∈ base, Plain token) (hname : LeadsName name) :
      Placed document (.edit .remove (base ++ [name]) value)
  | removeRoot {value : Option Json} : Placed document (.edit .remove [] value)
  | stage {removal : Removal} (hfits : removal.Fits document)
      (harray : ∀ token ∈ removal.array, LeadsName token) : Placed document (.stage removal)

variable {config : Config} {document : Json}

theorem exists_concat {tokens : List String} (h : tokens ≠ []) :
    ∃ base last, tokens = base ++ [last] := by
  rcases List.eq_nil_or_concat tokens with hnil | ⟨base, last, hconcat⟩
  · exact absurd hnil h
  · exact ⟨base, last, by rw [hconcat, List.concat_eq_append]⟩

theorem placed_add_of_plain {tokens : List String} (hne : tokens ≠ [])
    (htokens : ∀ token ∈ tokens, Plain token) (value : Option Json) :
    Placed document (.edit .add tokens value) := by
  obtain ⟨base, last, rfl⟩ := exists_concat hne
  exact .add fun token htoken => htokens token (List.mem_append_left _ htoken)

theorem placed_remove_of_names {tokens : List String} (htokens : ∀ token ∈ tokens, LeadsName token)
    (value : Option Json) : Placed document (.edit .remove tokens value) := by
  by_cases hne : tokens = []
  · subst hne
    exact .removeRoot
  · obtain ⟨base, name, rfl⟩ := exists_concat hne
    exact .remove (fun token htoken => .inl (htokens token (List.mem_append_left _ htoken)))
      (htokens name (List.mem_append_right _ List.mem_cons_self))

theorem placed_fieldSteps {base : List String} {existing : Option (List (String × Json))}
    {fields : List (String × Json)} (hbase : ∀ token ∈ base, Plain token) {step : Step}
    (h : step ∈ fieldSteps config .add base existing fields) : Placed document step := by
  obtain ⟨⟨field, value⟩, -, rfl⟩ := List.mem_map.1 h
  dsimp only
  split
  · exact .add hbase
  · exact .add hbase

theorem placed_addSteps {tokens : List String} {target : Option Json} {value : Json}
    (hne : tokens ≠ []) (htokens : ∀ token ∈ tokens, Plain token) {step : Step}
    (h : step ∈ addSteps config tokens target value) : Placed document step := by
  unfold addSteps at h
  split at h
  · obtain ⟨item, -, rfl⟩ := List.mem_map.1 h
    exact .add htokens
  · obtain rfl := List.mem_singleton.1 h
    exact .add htokens
  · exact placed_fieldSteps htokens h
  · obtain rfl := List.mem_singleton.1 h
    exact placed_add_of_plain hne htokens _

theorem placed_replaceSteps {tokens : List String} {target : Option Json} {value : Json}
    (hne : tokens ≠ []) (htokens : ∀ token ∈ tokens, Plain token) {step : Step}
    (h : step ∈ replaceSteps tokens target value) : Placed document step := by
  obtain rfl := List.mem_singleton.1 h
  split
  · exact .replace htokens
  · exact placed_add_of_plain hne htokens _

theorem placed_rootSteps {action : Action} {steps : List Step}
    (hsteps : rootSteps config document action = .ok steps) {step : Step} (h : step ∈ steps) :
    Placed document step := by
  unfold rootSteps at hsteps
  split at hsteps
  · rw [← Except.ok.inj hsteps] at h
    exact placed_fieldSteps (by simp) h
  · rw [← Except.ok.inj hsteps] at h
    obtain ⟨⟨field, value⟩, -, rfl⟩ := List.mem_map.1 h
    dsimp only
    split
    · rename_i key hkey
      obtain ⟨members, hmembers, -⟩ := Option.bind_eq_some_iff.1 hkey
      cases document with
      | obj members => exact .replaceField rfl
      | _ => simp [Json.members?] at hmembers
    · exact .add (by simp)
  · rw [← Except.ok.inj hsteps] at h
    obtain rfl := List.mem_singleton.1 h
    have hbase : ∀ token ∈ ([] : List String), Plain token := by simp
    exact .add hbase
  · simp at hsteps
  · simp at hsteps

theorem placed_removeSteps {tokens : List String} {target criteria : Option Json}
    (hremove : Placed document (.edit .remove tokens none))
    (hstage : ∀ items, target = some (.arr items) → criteria ≠ none →
      document.reach tokens = some (.arr items) ∧ ∀ token ∈ tokens, LeadsName token)
    {step : Step} (h : step ∈ removeSteps config tokens target criteria) :
    Placed document step := by
  unfold removeSteps at h
  split at h
  · simp at h
  · obtain ⟨index, hindex, rfl⟩ := List.mem_map.1 h
    obtain ⟨item, hitem, -⟩ := mem_indicesWhere.1 hindex
    obtain ⟨hreach, hnames⟩ := hstage _ rfl (by simp)
    exact .stage ⟨_, hreach, (List.getElem?_eq_some_iff.1 hitem).1⟩ hnames
  · obtain rfl := List.mem_singleton.1 h
    exact hremove

theorem placed_attributeSteps {text : String} {path : AttributePath} {action : Action}
    {steps : List Step} (hpath : AttributePath.parse text = .ok path)
    (hsteps : attributeSteps config document path action = .ok steps) {step : Step}
    (h : step ∈ steps) : Placed document step := by
  have hnames : ∀ token ∈ config.pointer document path, LeadsName token :=
    fun token htoken => Config.leadsName_of_mem_pointer hpath htoken
  unfold attributeSteps at hsteps
  split at hsteps
  · exact placed_rootSteps hsteps h
  rename_i token tokens hpointer
  rw [hpointer] at hnames
  have hplain : ∀ name ∈ token :: tokens, Plain name := fun name hname => .inl (hnames name hname)
  have hne : token :: tokens ≠ [] := List.cons_ne_nil token tokens
  rw [← Except.ok.inj hsteps] at h
  cases action with
  | add value => exact placed_addSteps hne hplain h
  | replace value => exact placed_replaceSteps hne hplain h
  | remove criteria =>
    refine placed_removeSteps (placed_remove_of_names hnames none) (fun items hitems _ => ?_) h
    rw [Pointer.lookup_eq_reach hnames] at hitems
    exact ⟨hitems, hnames⟩

/-- An element that was selected by its index is an element of the array there. -/
theorem fits_of_mem_selected {filter : Expression} {array : List String} {index : Nat} {item : Json}
    (h : (some index, item) ∈ selected config filter (document.reach array)) :
    Removal.Fits ⟨array, index⟩ document := by
  unfold selected at h
  split at h
  · rename_i items hreach
    obtain ⟨⟨found, position⟩, hmem, heq⟩ := List.mem_map.1 h
    obtain ⟨hindex, rfl⟩ := Prod.mk.inj heq
    obtain rfl := Option.some.inj hindex
    have hitem := List.mem_zipIdx_iff_getElem?.1 (List.mem_filter.1 hmem).1
    exact ⟨items, hreach, (List.getElem?_eq_some_iff.1 hitem).1⟩
  · split at h
    · simp at h
    · simp at h
  · simp at h

theorem plain_elementTokens {tokens : List String} (htokens : ∀ token ∈ tokens, LeadsName token)
    (index : Option Nat) : ∀ token ∈ elementTokens tokens index, Plain token := by
  intro token htoken
  cases index with
  | none => exact .inl (htokens token htoken)
  | some index =>
    rcases List.mem_append.1 htoken with htoken | htoken
    · exact .inl (htokens token htoken)
    · exact .inr ⟨index, List.mem_singleton.1 htoken⟩

theorem placed_elementSteps {tokens : List String} {index : Option Nat} {element : Json}
    {action : Action} (htokens : ∀ token ∈ tokens, LeadsName token)
    (hfits : ∀ position, index = some position → Removal.Fits ⟨tokens, position⟩ document)
    {step : Step} (h : step ∈ elementSteps config tokens index element action) :
    Placed document step := by
  have hplain := plain_elementTokens htokens index
  unfold elementSteps at h
  split at h
  · exact placed_fieldSteps hplain h
  · simp at h
  · obtain rfl := List.mem_singleton.1 h
    exact .replace hplain
  · split at h
    · obtain rfl := List.mem_singleton.1 h
      exact .stage (hfits _ rfl) htokens
    · obtain rfl := List.mem_singleton.1 h
      exact placed_remove_of_names htokens none

theorem placed_subSteps {tokens : List String} {element : Json} {text : String}
    {sub : AttributePath} {action : Action} (htokens : ∀ token ∈ tokens, Plain token)
    (hsub : AttributePath.parse text = .ok sub) (hschema : sub.schema = none)
    {step : Step} (h : step ∈ subSteps config tokens element sub action) : Placed document step := by
  have hnames : ∀ token ∈ config.pointer element sub, LeadsName token :=
    fun token htoken => Config.leadsName_of_mem_pointer hsub htoken
  have hinner : config.pointer element sub ≠ [] := Config.pointer_ne_nil hsub hschema element
  obtain ⟨base, name, hpointer⟩ := exists_concat hinner
  have hplain : ∀ token ∈ tokens ++ config.pointer element sub, Plain token := by
    intro token htoken
    rcases List.mem_append.1 htoken with htoken | htoken
    · exact htokens token htoken
    · exact .inl (hnames token htoken)
  have hne : tokens ++ config.pointer element sub ≠ [] := by
    rw [hpointer]
    simp
  have hremove : Placed document (.edit .remove (tokens ++ config.pointer element sub) none) := by
    rw [hpointer] at hnames hplain ⊢
    rw [← List.append_assoc] at hplain ⊢
    exact .remove (fun token htoken => hplain token (List.mem_append_left _ htoken))
      (hnames name (List.mem_append_right _ List.mem_cons_self))
  unfold subSteps at h
  cases action with
  | add value => exact placed_addSteps hne hplain h
  | replace value => exact placed_replaceSteps hne hplain h
  | remove criteria => exact placed_removeSteps hremove (fun _ _ hcriteria => absurd rfl hcriteria) h

theorem placed_filteredSteps {text : String} {path : ValuePath} {action : Action}
    {steps : List Step} (hpath : PatchPath.parse text = .ok (.filtered path))
    (hsteps : filteredSteps config document text path action = .ok steps) {step : Step}
    (h : step ∈ steps) : Placed document step := by
  obtain ⟨⟨targetText, htarget⟩, hsubs⟩ := PatchPath.parse_eq_ok hpath
  have hnames : ∀ token ∈ config.pointer document path.target, LeadsName token :=
    fun token htoken => Config.leadsName_of_mem_pointer htarget htoken
  obtain ⟨⟨index, element⟩, hselected, h⟩ := exists_selected_of_mem hsteps h
  rw [Pointer.lookup_eq_reach hnames] at hselected
  cases hsub : path.sub with
  | none =>
    rw [hsub] at h
    refine placed_elementSteps hnames (fun position hindex => ?_) h
    dsimp only at hindex
    rw [hindex] at hselected
    exact fits_of_mem_selected hselected
  | some sub =>
    rw [hsub] at h
    obtain ⟨hschema, subText, hsubText⟩ := hsubs sub hsub
    exact placed_subSteps (plain_elementTokens hnames index) hsubText hschema h

/-- An operation resolves its steps against the document. -/
theorem placed_operationSteps {operation : Operation} {steps : List Step}
    (hsteps : operationSteps config document operation = .ok steps) {step : Step}
    (h : step ∈ steps) : Placed document step := by
  obtain ⟨action, -, hsteps | ⟨text, path, -, hparse, hsteps⟩⟩ := operationSteps_cases hsteps
  · exact placed_rootSteps hsteps h
  · cases path with
    | plain path =>
      obtain ⟨⟨targetText, htarget⟩, -⟩ := PatchPath.parse_eq_ok hparse
      exact placed_attributeSteps htarget hsteps h
    | filtered path => exact placed_filteredSteps hparse hsteps h

theorem placed_batchSteps {operations : List Operation} {steps : List Step}
    (hsteps : batchSteps config document operations = .ok steps) {step : Step}
    (h : step ∈ steps) : Placed document step := by
  obtain ⟨operation, -, own, hown, h⟩ := exists_operation_of_mem hsteps h
  exact placed_operationSteps hown h

end Scim.Patch
