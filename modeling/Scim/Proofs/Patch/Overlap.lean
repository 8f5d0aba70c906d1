import Scim.Proofs.Patch.Deletion
import Scim.Proofs.Patch.Locality
import Scim.Proofs.Patch.Referents

/-!
Removals that meet. What a batch of removals takes from the document is there when the batch is
converted, so an edit can fail only because one in front of it took its value away. The removals of
elements are staged and never fail. Main statement: the batch can be applied exactly if no removal made
at once is one of the document itself, or at or below another one in front of it.
-/
namespace Scim

open Patch AttributePath

structure Edit.RemovesMember (edit : Edit) : Prop where
  op_eq : edit.op = .remove
  parse_eq : Pointer.parse edit.pointer = some edit.tokens
  ne_nil : edit.tokens ≠ []
  plain : ∀ token ∈ edit.tokens, Plain token
  leadsName : ∀ name, edit.tokens.getLast? = some name → LeadsName name

namespace Edit

variable {edit : Edit} {edits : List Edit} {document before after result : Json}
  {other : List String}

theorem removesMember_of_parse {base : List String} {name : String} (hop : edit.op = .remove)
    (hparse : Pointer.parse edit.pointer = some (base ++ [name]))
    (hbase : ∀ token ∈ base, Plain token) (hname : LeadsName name) : edit.RemovesMember := by
  have htokens : edit.tokens = base ++ [name] := by rw [Edit.tokens, hparse, Option.getD_some]
  refine ⟨hop, by rw [hparse, htokens], by simp [htokens], ?_, ?_⟩
  · rw [htokens]
    intro token htoken
    rcases List.mem_append.1 htoken with htoken | htoken
    · exact hbase token htoken
    · exact .inl (List.mem_singleton.1 htoken ▸ hname)
  · rw [htokens]
    intro last hlast
    rw [List.getLast?_concat] at hlast
    exact Option.some.inj hlast ▸ hname

theorem RemovesMember.apply_eq_ok_iff (h : edit.RemovesMember) :
    edit.apply before = .ok after ↔ remove edit.tokens before = .ok after := by
  simp only [apply, h.parse_eq, h.op_eq, located_eq_ok_iff]

/-- A member can be removed exactly if it is there. -/
theorem RemovesMember.exists_apply_iff (h : edit.RemovesMember) :
    (∃ after, edit.apply before = .ok after) ↔
      (Pointer.lookup edit.tokens before).isSome = true := by
  simp only [h.apply_eq_ok_iff]
  exact (exists_remove_iff h.plain).trans (and_iff_right h.ne_nil)

theorem RemovesMember.isWithin_eq (h : edit.RemovesMember) (place : List String) :
    edit.isWithin place = place.isPrefixOf edit.tokens := by
  rw [isWithin, h.parse_eq, Option.any_some]

theorem RemovesMember.tokens_eq (h : edit.RemovesMember) {tokens : List String}
    (hpointer : edit.pointer = Pointer.text tokens) : edit.tokens = tokens := by
  have hparse := h.parse_eq
  rw [hpointer] at hparse
  by_cases hblank : tokens = [""]
  · rw [hblank, Pointer.parse_text_blank] at hparse
    exact absurd (Option.some.inj hparse).symm h.ne_nil
  · rw [Pointer.parse_text hblank] at hparse
    exact (Option.some.inj hparse).symm

/-- A member is not around an element unless it is around the array. -/
theorem RemovesMember.isPrefixOf_array (h : edit.RemovesMember) {removal : Removal}
    (hplace : edit.tokens.isPrefixOf removal.place = true) : edit.tokens <+: removal.array := by
  rcases List.prefix_concat_iff.1 (List.isPrefixOf_iff_prefix.1 hplace) with heq | harray
  · have hlast := h.leadsName (indexToken removal.index) (by rw [heq, List.getLast?_concat])
    exact absurd hlast (not_leadsName_indexToken removal.index)
  · exact harray

theorem distinctKeys_removals (hedits : ∀ edit ∈ edits, edit.RemovesMember)
    (h : document.DistinctKeys) (hresult : applyAll edits document = .ok result) :
    result.DistinctKeys :=
  applyAll_preserves (fun edit hedit _ _ hbefore hafter =>
    distinctKeys_remove hbefore ((hedits edit hedit).apply_eq_ok_iff.1 hafter)) h hresult

/-- Removals leave what none of them takes away, and no more. -/
theorem isSome_lookup_applyAll (hedits : ∀ edit ∈ edits, edit.RemovesMember)
    (h : document.DistinctKeys) (hresult : applyAll edits document = .ok result) :
    (Pointer.lookup other result).isSome = (!edits.any (fun edit => edit.tokens.isPrefixOf other) &&
      (Pointer.lookup other document).isSome) := by
  induction edits generalizing document with
  | nil =>
    obtain rfl := Except.ok.inj hresult
    rfl
  | cons edit edits ih =>
    obtain ⟨next, hnext, hresult⟩ := Except.foldlM_cons_eq_ok_iff.1 hresult
    have hedit := hedits edit List.mem_cons_self
    have hremove := hedit.apply_eq_ok_iff.1 hnext
    rw [ih (fun other hmem => hedits other (List.mem_cons_of_mem edit hmem))
        (distinctKeys_remove h hremove) hresult,
      isSome_lookup_remove hedit.plain hedit.leadsName h hremove, List.any_cons,
      Bool.not_or, Bool.and_assoc, Bool.and_left_comm]

/-- Removals of members can be made one after the other exactly if all of them are there and none is
at or below another one in front of it. -/
theorem exists_applyAll_iff_pairwise (hedits : ∀ edit ∈ edits, edit.RemovesMember)
    (h : document.DistinctKeys) :
    (∃ result, applyAll edits document = .ok result) ↔
      (∀ edit ∈ edits, (Pointer.lookup edit.tokens document).isSome = true) ∧
        edits.Pairwise fun first later => later.isWithin first.tokens = false := by
  induction edits generalizing document with
  | nil => exact ⟨fun _ => ⟨by simp, .nil⟩, fun _ => ⟨document, rfl⟩⟩
  | cons edit edits ih =>
    have hedit := hedits edit List.mem_cons_self
    have hrest := fun other hmem => hedits other (List.mem_cons_of_mem edit hmem)
    -- what is left of the later places once the first edit was made
    have hleft : ∀ next, remove edit.tokens document = .ok next → ∀ other ∈ edits,
        ((Pointer.lookup other.tokens next).isSome = true ↔
          (Pointer.lookup other.tokens document).isSome = true ∧
            other.isWithin edit.tokens = false) := by
      intro next hnext other hmem
      rw [isSome_lookup_remove hedit.plain hedit.leadsName h hnext,
        (hrest other hmem).isWithin_eq, Bool.and_eq_true, Bool.not_eq_true', and_comm]
    have hcons : (∃ result, applyAll (edit :: edits) document = .ok result) ↔
        ∃ next, edit.apply document = .ok next ∧ ∃ result, applyAll edits next = .ok result := by
      simp only [applyAll, Except.foldlM_cons_eq_ok_iff]
      exact exists_comm.trans (exists_congr fun _ => exists_and_left)
    rw [hcons, List.pairwise_cons, List.forall_mem_cons]
    constructor
    · rintro ⟨next, hnext, hresult⟩
      have hremove := hedit.apply_eq_ok_iff.1 hnext
      obtain ⟨hthere, hpairwise⟩ := (ih hrest (distinctKeys_remove h hremove)).1 hresult
      have hboth := fun other hmem => (hleft next hremove other hmem).1 (hthere other hmem)
      exact ⟨⟨hedit.exists_apply_iff.1 ⟨next, hnext⟩, fun other hmem => (hboth other hmem).1⟩,
        fun other hmem => (hboth other hmem).2, hpairwise⟩
    · rintro ⟨⟨hfirst, hthere⟩, hnone, hpairwise⟩
      obtain ⟨next, hnext⟩ := hedit.exists_apply_iff.2 hfirst
      have hremove := hedit.apply_eq_ok_iff.1 hnext
      exact ⟨next, hnext, (ih hrest (distinctKeys_remove h hremove)).2
        ⟨fun other hmem => (hleft next hremove other hmem).2 ⟨hthere other hmem, hnone other hmem⟩,
          hpairwise⟩⟩

theorem exists_apply_of_applyAll (hresult : applyAll edits document = .ok result)
    (hedit : edit ∈ edits) : ∃ before after, edit.apply before = .ok after := by
  induction edits generalizing document with
  | nil => simp at hedit
  | cons first edits ih =>
    obtain ⟨next, hnext, hresult⟩ := Except.foldlM_cons_eq_ok_iff.1 hresult
    rcases List.mem_cons.1 hedit with rfl | hedit
    · exact ⟨document, next, hnext⟩
    · exact ih hresult hedit

end Edit

namespace Patch

variable {config : Config} {document : Json} {operations : List Operation} {steps : List Step}
  {step : Step} {op : PatchOp} {base tokens : List String} {value : Option Json}

/-- Removals of elements that are there can be made in order. -/
theorem exists_applyAll_staged {removals : List Removal} (hordered : Removal.Ordered removals)
    (hnames : ∀ removal ∈ removals, ∀ token ∈ removal.array, LeadsName token)
    (hthere : ∀ removal ∈ removals, (Pointer.lookup removal.place document).isSome = true)
    (h : document.DistinctKeys) :
    ∃ result, Edit.applyAll (removals.map Removal.edit) document = .ok result := by
  induction removals generalizing document with
  | nil => exact ⟨document, rfl⟩
  | cons first removals ih =>
    obtain ⟨hfirst, hrest⟩ := List.pairwise_cons.1 hordered
    have hfirstNames := hnames first List.mem_cons_self
    obtain ⟨next, hnext⟩ :=
      (Removal.exists_apply_iff hfirstNames).2 (hthere first List.mem_cons_self)
    have hlater := fun removal hremoval => hnames removal (List.mem_cons_of_mem first hremoval)
    have hkept : ∀ removal ∈ removals, (Pointer.lookup removal.place next).isSome = true := by
      intro removal hremoval
      rw [lookup_place_apply (hfirst removal hremoval) hfirstNames (hlater removal hremoval) h hnext]
      exact hthere removal (List.mem_cons_of_mem first hremoval)
    obtain ⟨result, hresult⟩ := ih hrest hlater hkept
      (Edit.distinctKeys_apply h (by simp [Removal.edit]) hnext)
    exact ⟨result, Except.foldlM_cons_eq_ok_iff.2 ⟨next, hnext, hresult⟩⟩

def Step.Removes (document : Json) : Step → Prop
  | .edit op tokens _ => op = .remove ∧ (Pointer.lookup tokens document).isSome = true
  | .stage _ => True

theorem op_eq_remove_of_mem_removeSteps {target criteria : Option Json}
    (h : .edit op tokens value ∈ removeSteps config base target criteria) : op = .remove := by
  unfold removeSteps at h
  split at h
  · simp at h
  · simp at h
  · exact (Step.edit.inj (List.mem_singleton.1 h)).1

theorem op_eq_remove_of_mem_selectedSteps {sub : Option AttributePath} {criteria : Option Json}
    {selection : Option Nat × Json}
    (h : .edit op tokens value ∈ selectedSteps config base sub (.remove criteria) selection) :
    op = .remove := by
  obtain ⟨index, element⟩ := selection
  cases sub with
  | some sub => exact op_eq_remove_of_mem_removeSteps h
  | none =>
    cases index with
    | some index => simp [selectedSteps, elementSteps] at h
    | none => exact (Step.edit.inj (List.mem_singleton.1 h)).1

/-- A removal that is made at once removes something that is there. -/
theorem removes_operationSteps {operation : Operation} (hremove : operation.op = .remove)
    (hsteps : operationSteps config document operation = .ok steps) (h : step ∈ steps) :
    step.Removes document := by
  have hrefers := refers_operationSteps hsteps h
  cases step with
  | stage removal => trivial
  | edit op tokens value =>
    suffices hop : op = .remove by
      obtain ⟨found, hfound⟩ := hrefers (by simp [hop])
      exact ⟨hop, by rw [hfound]; rfl⟩
    obtain ⟨action, haction, hsteps⟩ := operationSteps_cases hsteps
    obtain rfl := Except.ok.inj ((actionOf_remove hremove).symm.trans haction)
    obtain hsteps | ⟨text, path, -, -, hsteps⟩ := hsteps
    · simp [rootSteps] at hsteps
    cases path with
    | plain path =>
      simp only [pathSteps, attributeSteps] at hsteps
      split at hsteps
      · simp [rootSteps] at hsteps
      · rw [← Except.ok.inj hsteps] at h
        exact op_eq_remove_of_mem_removeSteps h
    | filtered path =>
      obtain ⟨selection, -, h⟩ := exists_selected_of_mem hsteps h
      exact op_eq_remove_of_mem_selectedSteps h

variable (hremoves : ∀ operation ∈ operations, operation.op = .remove)
  (hsteps : batchSteps config document operations = .ok steps)

include hremoves hsteps

/-- What a batch of removals does at once is to remove the document or members that are there. -/
theorem removesMember_of_mem_immediate {edit : Edit} (hedit : edit ∈ immediate steps) :
    edit.op = .remove ∧ (edit.pointer ≠ "" → edit.RemovesMember ∧
      (Pointer.lookup edit.tokens document).isSome = true) := by
  obtain ⟨tokens, hstep, hpointer⟩ := mem_immediate hedit
  obtain ⟨operation, hoperation, own, hown, hmem⟩ := exists_operation_of_mem hsteps hstep
  obtain ⟨hop, hthere⟩ := removes_operationSteps (hremoves operation hoperation) hown hmem
  refine ⟨hop, fun hroot => ?_⟩
  have hplaced := placed_batchSteps hsteps hstep
  rw [hop] at hplaced
  cases hplaced with
  | @remove base name _ hbase hname =>
    have hlast : name ∈ base ++ [name] := List.mem_append_right base List.mem_cons_self
    have hparse : Pointer.parse edit.pointer = some (base ++ [name]) := by
      rw [hpointer, Pointer.parse_text (Pointer.ne_blank_of_leadsName hname hlast)]
    have hmember := Edit.removesMember_of_parse hop hparse hbase hname
    rw [hmember.tokens_eq hpointer]
    exact ⟨hmember, hthere⟩
  | removeRoot => exact absurd hpointer hroot

/-- The elements of staged removals are still there after the edits made at once. -/
theorem isSome_lookup_staged {middle : Json} (hdistinct : document.DistinctKeys)
    (hroot : ∀ edit ∈ immediate steps, edit.pointer ≠ "")
    (hmiddle : Edit.applyAll (immediate steps) document = .ok middle) {removal : Removal}
    (hremoval : removal ∈ stagedWhere false steps) :
    (Pointer.lookup removal.place middle).isSome = true := by
  have hedits : ∀ edit ∈ immediate steps, edit.RemovesMember := fun edit hedit =>
    ((removesMember_of_mem_immediate hremoves hsteps hedit).2 (hroot edit hedit)).1
  obtain ⟨⟨items, hitems, hindex⟩, -⟩ := fits_of_mem_stagedWhere hsteps hremoval
  have hsuperseded : steps.any (supersedes removal.array) = false := by
    simpa using (List.mem_filter.1 hremoval).2
  have hnone : (immediate steps).any (fun edit => edit.tokens.isPrefixOf removal.place) = false := by
    refine List.any_eq_false.2 fun edit hedit habove => ?_
    obtain ⟨tokens, hstep, hpointer⟩ := mem_immediate hedit
    have hprefix := (hedits edit hedit).isPrefixOf_array habove
    rw [(hedits edit hedit).tokens_eq hpointer] at hprefix
    rw [(hedits edit hedit).op_eq] at hstep
    exact not_prefix_of_not_superseded hsuperseded hstep (by simp) hprefix
  rw [Edit.isSome_lookup_applyAll hedits hdistinct hmiddle, hnone,
    Removal.place, lookup_element hitems, List.getElem?_eq_getElem hindex]
  rfl

/-- A batch of removals can be applied exactly if no edit that it makes at once removes the document
itself, or something at or below what another one in front of it removes. Elements may be selected any
number of times. -/
theorem exists_applyAll_removals_iff (hdistinct : document.DistinctKeys) :
    (∃ result, Edit.applyAll (assemble steps) document = .ok result) ↔
      (∀ edit ∈ immediate steps, edit.pointer ≠ "") ∧
        (immediate steps).Pairwise fun first later => later.isWithin first.tokens = false := by
  have hmember : ∀ edit ∈ immediate steps, edit.op = .remove ∧ (edit.pointer ≠ "" →
      edit.RemovesMember ∧ (Pointer.lookup edit.tokens document).isSome = true) :=
    fun _ => removesMember_of_mem_immediate hremoves hsteps
  constructor
  · rintro ⟨result, hresult⟩
    rw [assemble, Edit.applyAll_append] at hresult
    obtain ⟨middle, hmiddle, -⟩ := Except.bind_eq_ok_iff.1 hresult
    have hroot : ∀ edit ∈ immediate steps, edit.pointer ≠ "" := by
      intro edit hedit hpointer
      obtain ⟨before, after, hafter⟩ := Edit.exists_apply_of_applyAll hmiddle hedit
      have hparse : Pointer.parse edit.pointer = some [] := by rw [hpointer]; rfl
      simp only [Edit.apply, hparse, (hmember edit hedit).1, Edit.located_eq_ok_iff] at hafter
      simp [Edit.remove] at hafter
    have hedits := fun edit hedit => ((hmember edit hedit).2 (hroot edit hedit)).1
    exact ⟨hroot, ((Edit.exists_applyAll_iff_pairwise hedits hdistinct).1 ⟨middle, hmiddle⟩).2⟩
  · rintro ⟨hroot, hpairwise⟩
    have hedits := fun edit hedit => ((hmember edit hedit).2 (hroot edit hedit)).1
    have hthere := fun edit hedit => ((hmember edit hedit).2 (hroot edit hedit)).2
    obtain ⟨middle, hmiddle⟩ :=
      (Edit.exists_applyAll_iff_pairwise hedits hdistinct).2 ⟨hthere, hpairwise⟩
    obtain ⟨result, hresult⟩ := exists_applyAll_staged (ordered_stagedWhere false steps)
      (fun removal hremoval => (fits_of_mem_stagedWhere hsteps hremoval).2)
      (fun removal => isSome_lookup_staged hremoves hsteps hdistinct hroot hmiddle)
      (Edit.distinctKeys_removals hedits hdistinct hmiddle)
    rw [assemble, Edit.applyAll_append]
    exact ⟨result, Except.bind_eq_ok_iff.2 ⟨middle, hmiddle, hresult⟩⟩

omit hremoves hsteps

/-- Elements selected twice, and a member of one of them before the element. -/
theorem exists_applyAll_removals_sample :
    ∃ operations steps,
      operations = [⟨.remove, some "emails[type eq \"work\"].type", none⟩,
        ⟨.remove, some "emails[type pr]", none⟩, ⟨.remove, some "Emails[type eq \"home\"]", none⟩] ∧
      (∀ operation ∈ operations, operation.op = .remove) ∧ sample.DistinctKeys ∧
      batchSteps {} sample operations = .ok steps ∧
      ∃ result, Edit.applyAll (assemble steps) sample = .ok result := by
  have hremoves : ∀ operation ∈ [
      (⟨.remove, some "emails[type eq \"work\"].type", none⟩ : Operation),
      ⟨.remove, some "emails[type pr]", none⟩, ⟨.remove, some "Emails[type eq \"home\"]", none⟩],
      operation.op = .remove := by simp
  have hsteps : batchSteps {} sample [⟨.remove, some "emails[type eq \"work\"].type", none⟩,
      ⟨.remove, some "emails[type pr]", none⟩, ⟨.remove, some "Emails[type eq \"home\"]", none⟩] =
    .ok [.edit .remove ["emails", "0", "type"] none, .stage ⟨["emails"], 0⟩, .stage ⟨["emails"], 1⟩,
      .stage ⟨["emails"], 1⟩] := rfl
  have hresult := (exists_applyAll_removals_iff hremoves hsteps distinctKeys_sample).2
    ⟨by decide, List.pairwise_singleton _ _⟩
  exact ⟨_, _, rfl, hremoves, distinctKeys_sample, hsteps, hresult⟩

/-- The same member removed twice fails the batch. -/
theorem fails_repeated_removal :
    ∃ edits error,
      convert {} (.obj [("title", .str "x")])
          [⟨.remove, some "title", none⟩, ⟨.remove, some "title", none⟩] = .ok edits ∧
      Edit.applyAll edits (.obj [("title", .str "x")]) = .error error :=
  ⟨[⟨.remove, "/title", none⟩, ⟨.remove, "/title", none⟩], _, rfl, rfl⟩

end Patch

end Scim
