import Mathlib.Data.List.InsertIdx
import Scim.Proofs.Json.Reordering
import Scim.Proofs.Patch.Place

/-!
Two edits at one place. Changing the value at a place twice is changing it once, so what the edits do
together is what they do to the container around the place. Removing what was added gives the document
back, and removing a value before adding another one in its place replaces it.
-/
namespace Scim.Edit

open Pointer

variable {token last pointer : String} {tokens rest parents : List String}
  {document before after value old parent : Json} {change next : Json → Except EditFault Json}

theorem descend_bind (token : String) (change next : Json → Except EditFault Json)
    (document : Json) : descend token change document >>= descend token next =
      descend token (fun child => change child >>= next) document := by
  cases document with
  | obj members =>
    cases hchild : Members.find? token members with
    | none =>
      rw [descend, descend, hchild]
      rfl
    | some child =>
      rw [descend_obj hchild, descend_obj hchild]
      cases change child with
      | error fault => rfl
      | ok changed =>
        have hnext := descend_obj (Members.find?_set_self token changed members) next
        simp only [Members.set_set] at hnext
        exact hnext
  | arr items =>
    cases hposition : index token items.length with
    | error fault =>
      simp only [descend, hposition]
      rfl
    | ok position =>
      have hlt := lt_of_index hposition
      have hitem := List.getElem?_eq_getElem hlt
      rw [descend_arr hposition hitem, descend_arr hposition hitem]
      cases change items[position] with
      | error fault => rfl
      | ok changed =>
        have hlength : index token (items.set position changed).length = .ok position := by
          rw [List.length_set, hposition]
        have hnext := descend_arr hlength (List.getElem?_set_self hlt) next
        simp only [List.set_set] at hnext
        exact hnext
  | _ => rfl

theorem key_descend (h : descend token change before = .ok after) (other : String) :
    key other after = key other before := by
  cases before with
  | obj members =>
    rw [descend] at h
    split at h
    · simp at h
    · obtain ⟨changed, -, rfl⟩ := Except.map_eq_ok_iff.1 h
      rfl
  | arr items =>
    obtain ⟨position, -, h⟩ := Except.bind_eq_ok_iff.1 h
    obtain ⟨changed, -, h⟩ := Except.bind_eq_ok_iff.1 h
    obtain rfl := Except.ok.inj h
    simp only [key, List.length_set]
  | _ => simp [descend] at h

/-- A child that was changed is there, so a later addition below it goes to it. -/
theorem add_cons_of_descend (hrest : rest ≠ []) (h : descend token change before = .ok after)
    (value : Json) : add (token :: rest) value after = descend token (add rest value) after := by
  obtain ⟨child, changed, -, hexchanges⟩ := descend_eq_ok h
  have hfound : lookup [key token after] after = some changed := by
    rw [key_descend h, hexchanges.lookup_eq, if_pos rfl]
  exact add_cons hrest hfound value

/-- An addition behind a change of the parent is part of the change. -/
theorem update_bind_add (parents : List String) (last : String) (value : Json)
    (change : Json → Except EditFault Json) (document : Json) :
    update change parents document >>= add (parents ++ [last]) value =
      update (fun parent => change parent >>= addChild last value) parents document := by
  induction parents generalizing document with
  | nil => rfl
  | cons token parents ih =>
    have hrest : parents ++ [last] ≠ [] := by simp
    have hadd : update change (token :: parents) document >>= add (token :: parents ++ [last]) value =
        descend token (update change parents) document >>=
          descend token (add (parents ++ [last]) value) :=
      Except.bind_congr fun after h => add_cons_of_descend hrest h value
    rw [hadd, descend_bind]
    exact congrArg (descend token · document) (funext ih)

/-- Two changes at one place are one change there. -/
theorem update_bind (tokens : List String) (change next : Json → Except EditFault Json)
    (document : Json) : update change tokens document >>= update next tokens =
      update (fun value => change value >>= next) tokens document := by
  induction tokens generalizing document with
  | nil => rfl
  | cons token tokens ih =>
    have hstep := descend_bind token (update change tokens) (update next tokens) document
    rw [funext ih] at hstep
    exact hstep

theorem add_of_find (hparent : find parents document = some parent) (last : String)
    (value : Json) :
    add (parents ++ [last]) value document = update (addChild last value) parents document := by
  induction parents generalizing document with
  | nil => rfl
  | cons token parents ih =>
    rw [find_cons] at hparent
    obtain ⟨child, hchild, hparent⟩ := Option.bind_eq_some_iff.1 hparent
    have hrest : parents ++ [last] ≠ [] := by simp
    rw [List.cons_append, add_cons hrest hchild]
    exact descend_congr hchild (ih hparent)

/-- A change that leaves the value at a place as it is leaves the document as it is. -/
theorem update_of_find (hold : find tokens document = some old) (h : change old = .ok old) :
    update change tokens document = .ok document := by
  induction tokens generalizing document with
  | nil =>
    obtain rfl : document = old := Option.some.inj hold
    exact h
  | cons token tokens ih =>
    rw [find_cons] at hold
    obtain ⟨child, hchild, hold⟩ := Option.bind_eq_some_iff.1 hold
    have hstep : descend token (update change tokens) document = descend token .ok document :=
      descend_congr hchild (ih hold)
    refine Eq.trans hstep ?_
    cases document with
    | obj members =>
      have hfound := (lookup_member token members).symm.trans hchild
      rw [descend_obj hfound, Except.map, Members.set_of_find? hfound]
    | arr items =>
      obtain ⟨position, hposition, hitem⟩ := lookup_key_arr.1 hchild
      obtain ⟨hlt, rfl⟩ := List.getElem?_eq_some_iff.1 hitem
      rw [descend_arr hposition hitem, Except.map, List.set_getElem_self]
    | _ => simp [lookup] at hchild

/-- A new child can be taken out again. -/
theorem removeChild_addChild (harr : ∀ items, parent = .arr items → last ≠ "-")
    (hobj : ∀ members, parent = .obj members → Members.find? last members = none)
    (h : addChild last value parent = .ok after) : removeChild last after = .ok parent := by
  cases parent with
  | obj members =>
    obtain rfl := Except.ok.inj h
    rw [removeChild, Members.find?_set_self]
    exact congrArg (Except.ok ∘ Json.obj) (Members.erase_set_of_find? (hobj members rfl) value)
  | arr items =>
    rw [addChild, if_neg (harr items rfl)] at h
    obtain ⟨position, hposition, rfl⟩ := Except.map_eq_ok_iff.1 h
    have hle := Nat.le_of_lt_succ (lt_of_index hposition)
    rw [removeChild, List.length_insertIdx_of_le_length hle, hposition, Except.map,
      List.eraseIdx_insertIdx_self]
  | _ => simp [addChild] at h

/-- Removing what was added gives the document back, with all members in their order. The container
was there before, what was added is no member that took the place of another one, and its place in an
array was told by an index. -/
theorem remove_add {added : Json} (value : Json)
    (hparse : Pointer.parse pointer = some (parents ++ [last]))
    (hparent : find parents document = some parent)
    (harr : ∀ items, parent = .arr items → last ≠ "-")
    (hobj : ∀ members, parent = .obj members → Members.find? last members = none)
    (h : applyAll [⟨.add, pointer, some value⟩] document = .ok added) :
    applyAll [⟨.remove, pointer, none⟩] added = .ok document := by
  simp only [applyAll_singleton, apply, hparse, located_eq_ok_iff] at h ⊢
  rw [add_of_find hparent] at h
  obtain ⟨old, new, hold, hnew, -⟩ := update_eq_ok h
  obtain rfl := Option.some.inj (hparent.symm.trans hold)
  have hundone : addChild last value parent >>= removeChild last = .ok parent := by
    rw [hnew]
    exact removeChild_addChild harr hobj hnew
  calc remove (parents ++ [last]) added
    _ = update (removeChild last) parents added := remove_concat parents last added
    _ = update (addChild last value) parents document >>= update (removeChild last) parents := by
      rw [h]
      rfl
    _ = update (fun parent => addChild last value parent >>= removeChild last) parents document :=
      update_bind parents _ _ document
    _ = .ok document := update_of_find hparent hundone

/-- An element in the middle of an array, and a member of an object behind an index with a plus
sign. -/
theorem remove_add_sample : ∃ document inserted extended,
    document = .obj [("a", .arr [.str "x", .obj [("b", .null)]]), ("c", .null)] ∧
    inserted = .obj [("a", .arr [.str "x", .num "1", .obj [("b", .null)]]), ("c", .null)] ∧
    applyAll [⟨.add, "/a/1", some (.num "1")⟩] document = .ok inserted ∧
    applyAll [⟨.remove, "/a/1", none⟩] inserted = .ok document ∧
    extended = .obj [("a", .arr [.str "x", .obj [("b", .null), ("-", .num "1")]]), ("c", .null)] ∧
    applyAll [⟨.add, "/a/+1/-", some (.num "1")⟩] document = .ok extended ∧
    applyAll [⟨.remove, "/a/+1/-", none⟩] extended = .ok document := by
  refine ⟨_, _, _, rfl, rfl, rfl, ?_, rfl, rfl, ?_⟩
  · have hparse : Pointer.parse "/a/1" = some (["a"] ++ ["1"]) := rfl
    exact remove_add (.num "1") hparse rfl (by simp) (by simp) rfl
  · have hparse : Pointer.parse "/a/+1/-" = some (["a", "+1"] ++ ["-"]) := rfl
    refine remove_add (.num "1") hparse rfl (by simp) (fun members hmembers => ?_) rfl
    obtain rfl := Json.obj.inj hmembers
    rfl

inductive Agree : Except EditFault Json → Except EditFault Json → Prop
  | documents {left right : Json} (h : left.Reordered right) : Agree (.ok left) (.ok right)
  | faults (fault other : EditFault) : Agree (.error fault) (.error other)

theorem Agree.map {left right : Except EditFault Json} {f g : Json → Json} (h : Agree left right)
    (hmap : ∀ value other, value.Reordered other → (f value).Reordered (g other)) :
    Agree (left.map f) (right.map g) := by
  cases h with
  | documents h => exact .documents (hmap _ _ h)
  | faults fault other => exact .faults fault other

theorem Agree.outcomes {left right : Except EditFault Json} (h : Agree left right) :
    ((∃ value, left = .ok value) ↔ ∃ other, right = .ok other) ∧
      ∀ value other, left = .ok value → right = .ok other → value.Reordered other := by
  cases h with
  | documents h =>
    refine ⟨⟨fun _ => ⟨_, rfl⟩, fun _ => ⟨_, rfl⟩⟩, fun value other hleft hright => ?_⟩
    rw [← Except.ok.inj hleft, ← Except.ok.inj hright]
    exact h
  | faults fault other => simp

theorem agree_descend (hdistinct : document.DistinctKeys)
    (h : ∀ child, child.DistinctKeys → Agree (change child) (next child)) :
    Agree (descend token change document) (descend token next document) := by
  cases document with
  | obj members =>
    cases hchild : Members.find? token members with
    | none =>
      rw [descend, descend, hchild]
      exact .faults _ _
    | some child =>
      rw [descend_obj hchild, descend_obj hchild]
      exact (h child (hdistinct.find hchild)).map fun _ _ h => h.set token members
  | arr items =>
    cases hposition : index token items.length with
    | error fault =>
      simp only [descend, hposition]
      exact .faults fault fault
    | ok position =>
      have hitem := List.getElem?_eq_getElem (lt_of_index hposition)
      rw [descend_arr hposition hitem, descend_arr hposition hitem]
      exact (h _ (hdistinct.item (List.mem_of_getElem? hitem))).map fun _ _ h =>
        h.setItem position items
  | _ => exact .faults _ _

theorem agree_update (hdistinct : document.DistinctKeys)
    (h : ∀ value, value.DistinctKeys → Agree (change value) (next value)) :
    Agree (update change tokens document) (update next tokens document) := by
  induction tokens generalizing document with
  | nil => exact h document hdistinct
  | cons token tokens ih => exact agree_descend hdistinct fun _ hchild => ih hchild

/-- In a container a child is replaced, or removed and added again, and then it may be the last one
of the members. -/
theorem agree_addChild (last : String) (value : Json) (hdistinct : parent.DistinctKeys) :
    Agree (descend last (fun _ => .ok value) parent)
      (removeChild last parent >>= addChild last value) := by
  cases parent with
  | obj members =>
    cases hchild : Members.find? last members with
    | none =>
      rw [descend, removeChild, hchild]
      exact .faults _ _
    | some child =>
      have hkeys := hdistinct.keys_nodup
      rw [descend_obj hchild, removeChild, hchild]
      refine .documents (.of_perm (Members.perm_of_find?_eq (Members.nodup_keys_set hkeys value)
        (Members.nodup_keys_set (Members.nodup_keys_erase hkeys) value) fun key => ?_))
      by_cases hkey : last = key
      · rw [hkey, Members.find?_set_self, Members.find?_set_self]
      · rw [Members.find?_set_of_ne hkey, Members.find?_set_of_ne hkey,
          Members.find?_erase_of_ne hkeys hkey]
  | arr items =>
    cases hposition : index last items.length with
    | error fault =>
      simp only [descend, removeChild, hposition]
      exact .faults fault fault
    | ok position =>
      have hlt := lt_of_index hposition
      have hdash : last ≠ "-" := by
        rintro rfl
        rw [index_dash] at hposition
        cases hposition
      -- An addition takes one index more than a removal, and there is one element less.
      have hlength : (items.eraseIdx position).length + 1 = items.length := by
        rw [List.length_eraseIdx_of_lt hlt]
        omega
      have hadd : addChild last value (.arr (items.eraseIdx position)) =
          .ok (.arr (items.set position value)) := by
        rw [addChild, if_neg hdash, hlength, hposition, Except.map,
          List.insertIdx_eraseIdx_self (Nat.ne_of_lt hlt)]
      have hexchanged : removeChild last (.arr items) >>= addChild last value =
          .ok (.arr (items.set position value)) := by
        rw [removeChild, hposition]
        exact hadd
      rw [descend_arr hposition (List.getElem?_eq_getElem hlt), hexchanged]
      exact .documents (Json.reordered_refl _)
  | _ => exact .faults _ _

/-- A replacement and a removal with an addition behind it come to the same. -/
theorem agree_replace (hdistinct : document.DistinctKeys) (hne : tokens ≠ []) (value : Json) :
    Agree (replace tokens value document) (remove tokens document >>= add tokens value) := by
  rcases List.eq_nil_or_concat tokens with rfl | ⟨parents, last, rfl⟩
  · exact absurd rfl hne
  have hreplace : replace (parents ++ [last]) value document =
      update (descend last fun _ => .ok value) parents document := by
    rw [replace, update, List.foldr_append]
    rfl
  rw [List.concat_eq_append, hreplace, remove_concat, update_bind_add]
  exact agree_update hdistinct fun _ hparent => agree_addChild last value hparent

/-- Replacing a value succeeds exactly if removing it and adding the new one at its place does, and
the documents are the same but for the order of members. -/
theorem replace_iff_remove_add (hdistinct : document.DistinctKeys)
    (hroot : Pointer.parse pointer ≠ some []) (value : Json) :
    ((∃ replaced, applyAll [⟨.replace, pointer, some value⟩] document = .ok replaced) ↔
      ∃ exchanged, applyAll [⟨.remove, pointer, none⟩, ⟨.add, pointer, some value⟩] document =
        .ok exchanged) ∧
    ∀ replaced exchanged, applyAll [⟨.replace, pointer, some value⟩] document = .ok replaced →
      applyAll [⟨.remove, pointer, none⟩, ⟨.add, pointer, some value⟩] document = .ok exchanged →
      replaced.Reordered exchanged := by
  cases hparse : Pointer.parse pointer with
  | none => simp [applyAll, apply, hparse, bind, Except.bind]
  | some tokens =>
    have hne : tokens ≠ [] := by
      rintro rfl
      exact hroot hparse
    have hreplace : ∀ replaced,
        applyAll [⟨.replace, pointer, some value⟩] document = .ok replaced ↔
          replace tokens value document = .ok replaced := by
      intro replaced
      simp only [applyAll_singleton, apply, hparse, located_eq_ok_iff]
    have hexchange : ∀ exchanged,
        applyAll [⟨.remove, pointer, none⟩, ⟨.add, pointer, some value⟩] document = .ok exchanged ↔
          (remove tokens document >>= add tokens value) = .ok exchanged := by
      intro exchanged
      simp only [applyAll, Except.foldlM_cons_eq_ok_iff, apply, hparse, located_eq_ok_iff,
        Except.bind_eq_ok_iff, List.foldlM_nil, pure, Except.pure]
      simp
    simp only [hreplace, hexchange]
    exact (agree_replace hdistinct hne value).outcomes

/-- A member of an object in an array, which the removal of the member reorders. -/
theorem replace_iff_remove_add_sample : ∃ document replaced exchanged,
    document = .obj [("a", .arr [.obj [("b", .null), ("c", .num "1"), ("d", .num "2")]])] ∧
    document.DistinctKeys ∧ Pointer.parse "/a/+0/b" ≠ some [] ∧
    replaced = .obj [("a", .arr [.obj [("b", .str "x"), ("c", .num "1"), ("d", .num "2")]])] ∧
    applyAll [⟨.replace, "/a/+0/b", some (.str "x")⟩] document = .ok replaced ∧
    exchanged = .obj [("a", .arr [.obj [("d", .num "2"), ("c", .num "1"), ("b", .str "x")]])] ∧
    applyAll [⟨.remove, "/a/+0/b", none⟩, ⟨.add, "/a/+0/b", some (.str "x")⟩] document =
      .ok exchanged ∧
    replaced.Reordered exchanged := by
  have hdistinct : (Json.obj [("a", .arr [.obj [("b", .null), ("c", .num "1"),
      ("d", .num "2")]])]).DistinctKeys := by
    refine .single "a" (.arr fun item hitem => ?_)
    obtain rfl := List.mem_singleton.1 hitem
    refine .obj (by decide) fun member hmember => ?_
    simp only [List.mem_cons, List.not_mem_nil, or_false] at hmember
    rcases hmember with rfl | rfl | rfl
    · exact .null
    · exact .num "1"
    · exact .num "2"
  have hroot : Pointer.parse "/a/+0/b" ≠ some [] := by
    have hparse : Pointer.parse "/a/+0/b" = some ["a", "+0", "b"] := rfl
    simp [hparse]
  refine ⟨_, _, _, rfl, hdistinct, hroot, rfl, rfl, rfl, rfl, ?_⟩
  exact (replace_iff_remove_add hdistinct hroot (.str "x")).2 _ _ rfl rfl

end Scim.Edit
