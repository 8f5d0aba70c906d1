import Scim.Proofs.Patch.Erasure
import Scim.Proofs.Patch.Removal

/-!
What a removal takes out of a document. It can be made exactly where its element is there, and the
removals that come before it in order leave the value at its place alone, whatever edits have made of
the document before.
-/
namespace Scim.Patch

open AttributePath

def Removal.takes (removal : Removal) (document : Json) : Option Json :=
  match removal.edit.apply document with
  | .ok _ => Pointer.lookup removal.place document
  | .error _ => none

theorem Removal.plain_place {removal : Removal} (hnames : ∀ token ∈ removal.array, LeadsName token) :
    ∀ token ∈ removal.place, Plain token := by
  intro token htoken
  rcases List.mem_append.1 htoken with htoken | htoken
  · exact .inl (hnames token htoken)
  · exact .inr ⟨removal.index, List.mem_singleton.1 htoken⟩

/-- A removal can be made where its element is there. -/
theorem Removal.exists_apply_iff {removal : Removal}
    (hnames : ∀ token ∈ removal.array, LeadsName token) {document : Json} :
    (∃ result, removal.edit.apply document = .ok result) ↔
      (Pointer.lookup removal.place document).isSome = true := by
  have hne : removal.place ≠ [] := List.append_ne_nil_of_right_ne_nil _ (List.cons_ne_nil _ _)
  simp only [removal.apply_edit_eq_remove, Edit.located_eq_ok_iff]
  rw [Edit.exists_remove_iff (removal.plain_place hnames), and_iff_right hne]

/-- A removal takes the value that its pointer leads to. -/
theorem Removal.takes_eq_lookup {removal : Removal}
    (hnames : ∀ token ∈ removal.array, LeadsName token) (document : Json) :
    removal.takes document = Pointer.lookup removal.place document := by
  unfold Removal.takes
  split
  · rfl
  · rename_i fault hfault
    cases hvalue : Pointer.lookup removal.place document with
    | none => rfl
    | some value =>
      obtain ⟨result, hresult⟩ := (Removal.exists_apply_iff hnames).2 (by rw [hvalue]; rfl)
      simp [hresult] at hfault

theorem lookup_removeChild {other : List String} {index position : Nat} {before after : Json}
    (hother : ∀ token ∈ other, LeadsName token) (hbehind : other = [] → index < position)
    (h : before.DistinctKeys)
    (hresult : Edit.removeChild (indexToken position) before = .ok after) :
    Pointer.lookup (other ++ [indexToken index]) after =
      Pointer.lookup (other ++ [indexToken index]) before := by
  cases before with
  | obj members =>
    rw [Edit.removeChild] at hresult
    split at hresult
    · simp at hresult
    obtain rfl := Except.ok.inj hresult
    cases other with
    | nil =>
      have hne : indexToken position ≠ indexToken index :=
        fun htoken => Nat.ne_of_gt (hbehind rfl) (Pointer.indexToken_injective htoken)
      simp only [List.nil_append, Pointer.lookup, Members.find?_erase_of_ne h.keys_nodup hne]
    | cons name other =>
      have hne : indexToken position ≠ name := by
        rintro rfl
        exact not_leadsName_indexToken position (hother _ List.mem_cons_self)
      simp only [List.cons_append, Pointer.lookup, Members.find?_erase_of_ne h.keys_nodup hne]
  | arr items =>
    rw [Edit.removeChild, Pointer.index_indexToken] at hresult
    split at hresult
    · obtain rfl := Except.ok.inj hresult
      cases other with
      | nil =>
        simp only [List.nil_append, Pointer.lookup, Pointer.index?_indexToken, Option.bind_some,
          List.getElem?_eraseIdx_of_lt (hbehind rfl)]
      | cons name other =>
        have hname := Pointer.index?_of_leadsName (hother name List.mem_cons_self)
        simp only [List.cons_append, Pointer.lookup, hname, Option.bind_none]
    · simp [Except.map] at hresult
  | _ => simp [Edit.removeChild] at hresult

/-- A removal from another array, or from behind an element, leaves the value at the element's place
alone, whatever stands there. -/
theorem lookup_update_removeChild {array other : List String} {index position : Nat}
    {before after : Json} (harray : ∀ token ∈ array, LeadsName token)
    (hother : ∀ token ∈ other, LeadsName token) (hbehind : array = other → index < position)
    (h : before.DistinctKeys)
    (hresult : Edit.update (Edit.removeChild (indexToken position)) array before = .ok after) :
    Pointer.lookup (other ++ [indexToken index]) after =
      Pointer.lookup (other ++ [indexToken index]) before := by
  induction array generalizing other before after with
  | nil => exact lookup_removeChild hother (fun hnil => hbehind hnil.symm) h hresult
  | cons key array ih =>
    have hkey := harray key List.mem_cons_self
    obtain ⟨child, changed, hchange, hexchanges⟩ := Edit.descend_eq_ok hresult
    rw [Edit.key_of_plain (.inl hkey)] at hexchanges
    cases other with
    | nil =>
      have hne : indexToken index ≠ key := by
        rintro rfl
        exact not_leadsName_indexToken index hkey
      rw [List.nil_append, hexchanges.lookup_eq, if_neg hne]
    | cons name other =>
      rw [List.cons_append, Pointer.lookup_cons name _ after, Pointer.lookup_cons name _ before,
        hexchanges.lookup_eq]
      split
      · rename_i hname
        subst hname
        rw [hexchanges.found, Option.bind_some, Option.bind_some]
        exact ih (fun token htoken => harray token (List.mem_cons_of_mem name htoken))
          (fun token htoken => hother token (List.mem_cons_of_mem name htoken))
          (fun heq => hbehind (congrArg (name :: ·) heq))
          (Pointer.distinctKeys_child h hexchanges.found) hchange
      · rfl

/-- A removal leaves the element of a later one where it is. -/
theorem lookup_place_apply {first removal : Removal} {before after : Json}
    (horder : first.order removal = .lt) (hfirst : ∀ token ∈ first.array, LeadsName token)
    (hremoval : ∀ token ∈ removal.array, LeadsName token) (h : before.DistinctKeys)
    (hresult : first.edit.apply before = .ok after) :
    Pointer.lookup removal.place after = Pointer.lookup removal.place before := by
  rw [first.apply_edit_eq] at hresult
  exact lookup_update_removeChild hfirst hremoval
    (fun harray => Removal.index_lt_of_order horder harray) h (Edit.located_eq_ok hresult)

theorem lookup_place_applyAll {removal : Removal} {earlier : List Removal} {before after : Json}
    (hearlier : ∀ first ∈ earlier, first.order removal = .lt ∧ ∀ token ∈ first.array, LeadsName token)
    (hremoval : ∀ token ∈ removal.array, LeadsName token) (h : before.DistinctKeys)
    (hresult : Edit.applyAll (earlier.map Removal.edit) before = .ok after) :
    Pointer.lookup removal.place after = Pointer.lookup removal.place before := by
  have hkept := Edit.applyAll_preserves (P := fun now => now.DistinctKeys ∧
    Pointer.lookup removal.place now = Pointer.lookup removal.place before)
    (fun edit hedit now next hnow hnext => ?_) ⟨h, rfl⟩ hresult
  · exact hkept.2
  · obtain ⟨first, hmem, rfl⟩ := List.mem_map.1 hedit
    obtain ⟨horder, hfirst⟩ := hearlier first hmem
    obtain ⟨hdistinct, hlookup⟩ := hnow
    constructor
    · exact Edit.distinctKeys_apply hdistinct (by simp [Removal.edit]) hnext
    · rw [lookup_place_apply horder hfirst hremoval hdistinct hnext, hlookup]

end Scim.Patch
