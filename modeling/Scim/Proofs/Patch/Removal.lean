import Scim.Proofs.Json.Reach
import Scim.Proofs.Patch.Staging

/-!
Removing elements of arrays one after the other. As long as the removals from each array come with
falling indices, every index still means the element that it meant in the document, so together they
take exactly the named elements out.
-/
namespace Scim.Patch

def keep {α : Type} (gone : Nat → Bool) : List α → List α
  | [] => []
  | a :: as => if gone 0 then keep (fun i => gone (i + 1)) as else a :: keep (fun i => gone (i + 1)) as

variable {α : Type}

/-- Dropping the elements at some indices is a filter if these are the indices of a test. -/
theorem keep_eq_filter {gone : Nat → Bool} {test : α → Bool} {as : List α}
    (h : ∀ i a, as[i]? = some a → gone i = test a) : keep gone as = as.filter fun a => !test a := by
  induction as generalizing gone with
  | nil => rfl
  | cons a as ih =>
    have hfirst := h 0 a rfl
    have hrest : keep (fun i => gone (i + 1)) as = as.filter fun a => !test a :=
      ih fun i b hb => h (i + 1) b (by simpa using hb)
    rw [keep, hrest, hfirst, List.filter_cons]
    cases test a <;> rfl

theorem keep_none {gone : Nat → Bool} (h : ∀ i, gone i = false) (as : List α) :
    keep gone as = as := by
  induction as generalizing gone with
  | nil => rfl
  | cons a as ih =>
    have hrest : keep (fun i => gone (i + 1)) as = as := ih fun i => h (i + 1)
    rw [keep, h 0, hrest]
    rfl

/-- An element behind all others that go can go first. -/
theorem keep_eraseIdx {gone : Nat → Bool} {i : Nat} (h : ∀ j, gone j = true → j < i) (as : List α) :
    keep gone (as.eraseIdx i) = keep (fun j => j == i || gone j) as := by
  induction as generalizing gone i with
  | nil => rfl
  | cons a as ih =>
    cases i with
    | zero =>
      have hnone : ∀ j, gone j = false := fun j => Bool.eq_false_iff.2 fun hj => by
        have := h j hj
        omega
      have hrest : ∀ j, (j + 1 == 0 || gone (j + 1)) = false := by simp [hnone]
      rw [List.eraseIdx_zero, List.tail_cons, keep_none hnone, keep, if_pos (by simp),
        keep_none hrest]
    | succ i =>
      have hlater : keep (fun j => gone (j + 1)) (as.eraseIdx i) =
          keep (fun j => j == i || gone (j + 1)) as := ih fun j hj => by
        have := h (j + 1) hj
        omega
      have hshift : (fun j => j + 1 == i + 1 || gone (j + 1)) = fun j => j == i || gone (j + 1) := by
        funext j
        simp
      rw [List.eraseIdx_cons_succ, keep, keep, hlater, hshift]
      simp

theorem mem_indicesWhere {test : Json → Bool} {items : List Json} {index : Nat} :
    index ∈ indicesWhere test items ↔ ∃ item, items[index]? = some item ∧ test item = true := by
  simp only [indicesWhere, List.mem_map, List.mem_filter, List.mem_zipIdx_iff_getElem?]
  constructor
  · rintro ⟨⟨item, position⟩, ⟨hitem, htest⟩, rfl⟩
    exact ⟨item, hitem, htest⟩
  · rintro ⟨item, hitem, htest⟩
    exact ⟨(item, index), ⟨hitem, htest⟩, rfl⟩

/-- An update of a value that is reached puts the changed value there. -/
theorem update_of_reach {path : List String} {document old value : Json}
    {change : Json → Except EditFault Json} (hold : document.reach path = some old)
    (hchange : change old = .ok value) :
    Edit.update change path document = .ok (Json.put path value document) := by
  induction path generalizing document with
  | nil =>
    obtain rfl : document = old := Option.some.inj hold
    exact hchange
  | cons key path ih =>
    obtain ⟨members, child, rfl, hchild, hold⟩ := Json.reach_cons_eq_some hold
    have hbelow : Edit.update change (key :: path) (.obj members) =
        Edit.descend key (Edit.update change path) (.obj members) := rfl
    rw [hbelow, Json.put_obj hchild, Edit.descend, hchild]
    simp only [ih hold, Except.map]

theorem array_ne_blank (array : List String) (index : Nat) :
    array ++ [indexToken index] ≠ [""] := by
  intro h
  have hlast := congrArg List.getLast? h
  have htoken : indexToken index = "" := by simpa using hlast
  have hdigits := congrArg String.toList htoken
  rw [indexToken, String.toList_ofList] at hdigits
  exact Nat.toDigits_ne_nil hdigits

def Removal.Fits (removal : Removal) (document : Json) : Prop :=
  ∃ items, document.reach removal.array = some (.arr items) ∧ removal.index < items.length

def Removal.place (removal : Removal) : List String :=
  removal.array ++ [indexToken removal.index]

theorem Removal.parse_edit (removal : Removal) :
    Pointer.parse removal.edit.pointer = some removal.place :=
  Pointer.parse_text (array_ne_blank removal.array removal.index)

theorem Removal.apply_edit_eq_remove (removal : Removal) (document : Json) :
    removal.edit.apply document = removal.edit.located (Edit.remove removal.place document) := by
  simp only [Edit.apply, removal.parse_edit]
  rfl

theorem Removal.apply_edit_eq (removal : Removal) (document : Json) :
    removal.edit.apply document = removal.edit.located
      (Edit.update (Edit.removeChild (indexToken removal.index)) removal.array document) := by
  have hremove : Edit.remove removal.place document =
      Edit.update (Edit.removeChild (indexToken removal.index)) removal.array document := by
    simp only [Edit.remove, Removal.place, List.getLast?_concat, List.dropLast_concat]
  rw [removal.apply_edit_eq_remove, hremove]

/-- A removal takes its element out of the array. -/
theorem Removal.apply_edit {removal : Removal} {document : Json} {items : List Json}
    (hreach : document.reach removal.array = some (.arr items))
    (hindex : removal.index < items.length) :
    removal.edit.apply document =
      .ok (Json.put removal.array (.arr (items.eraseIdx removal.index)) document) := by
  have hchange : Edit.removeChild (indexToken removal.index) (.arr items) =
      .ok (.arr (items.eraseIdx removal.index)) := by
    rw [Edit.removeChild, Pointer.index_indexToken, if_pos hindex]
    rfl
  rw [removal.apply_edit_eq, update_of_reach hreach hchange]
  rfl

/-- Two arrays that are both there do not lie inside each other. -/
theorem not_prefix_of_reach {path other : List String} {document : Json} {items others : List Json}
    (hpath : document.reach path = some (.arr items))
    (hother : document.reach other = some (.arr others)) (hne : path ≠ other) : ¬path <+: other := by
  rintro ⟨inner, rfl⟩
  induction path generalizing document with
  | nil =>
    obtain rfl : document = .arr items := Option.some.inj hpath
    cases inner with
    | nil => exact hne rfl
    | cons name inner => simp [Json.reach] at hother
  | cons key path ih =>
    obtain ⟨members, child, rfl, hchild, hpath⟩ := Json.reach_cons_eq_some hpath
    rw [List.cons_append, Json.reach_obj hchild] at hother
    exact ih hpath hother fun h => hne (congrArg (key :: ·) h)

/-- A removal still fits after one that comes before it in the order. -/
theorem Removal.Fits.put {first removal : Removal} {document : Json} {items : List Json}
    (hremoval : removal.Fits document) (hreach : document.reach first.array = some (.arr items))
    (horder : first.order removal = .lt) (hindex : first.index < items.length) :
    removal.Fits (Json.put first.array (.arr (items.eraseIdx first.index)) document) := by
  obtain ⟨others, hothers, hlength⟩ := hremoval
  by_cases harray : first.array = removal.array
  · have hfalling := index_lt_of_order horder harray
    rw [harray] at hreach ⊢
    obtain rfl : items = others := by simpa [hreach] using hothers
    refine ⟨_, Json.reach_put_self hreach _, ?_⟩
    rw [List.length_eraseIdx_of_lt hindex]
    omega
  · refine ⟨others, ?_, hlength⟩
    rw [Json.reach_put_of_apart (not_prefix_of_reach hreach hothers harray)
      (not_prefix_of_reach hothers hreach (Ne.symm harray)), hothers]

theorem contains_cons_array (first : Removal) (rest : List Removal) (index : Nat) :
    (first :: rest).contains ⟨first.array, index⟩ =
      (index == first.index || rest.contains ⟨first.array, index⟩) := by
  obtain ⟨array, position⟩ := first
  rw [List.contains_cons]
  congr 1
  rw [Bool.eq_iff_iff]
  simp

/-- Removals in order take out the elements that they name, and nothing else. -/
theorem applyAll_removals {removals : List Removal} {document : Json}
    (hordered : Removal.Ordered removals) (hfits : ∀ removal ∈ removals, removal.Fits document) :
    Edit.applyAll (removals.map Removal.edit) document =
      .ok (document.mapArrays fun array => keep fun index => removals.contains ⟨array, index⟩) := by
  induction removals generalizing document with
  | nil =>
    have hkeep : (fun _ : List String => keep fun _ => false) =
        fun (_ : List String) (items : List Json) => items :=
      funext fun _ => funext fun items => keep_none (fun _ => rfl) items
    simp only [List.contains_nil, hkeep, Json.mapArrays_keep]
    rfl
  | cons first rest ih =>
    obtain ⟨hfirst, hrest⟩ := List.pairwise_cons.1 hordered
    obtain ⟨items, hreach, hindex⟩ := hfits first List.mem_cons_self
    have hlater : ∀ removal ∈ rest, removal.Fits
        (Json.put first.array (.arr (items.eraseIdx first.index)) document) :=
      fun removal hremoval => (hfits removal (List.mem_cons_of_mem first hremoval)).put hreach
        (hfirst removal hremoval) hindex
    have hmap : (Json.put first.array (.arr (items.eraseIdx first.index)) document).mapArrays
          (fun array => keep fun index => rest.contains ⟨array, index⟩) =
        document.mapArrays fun array => keep fun index => (first :: rest).contains ⟨array, index⟩ := by
      refine Json.mapArrays_put hreach ?_ fun other hother => ?_
      · have hfalling : ∀ index, rest.contains ⟨first.array, index⟩ = true →
            index < first.index := by
          intro index hcontains
          have hmem := List.contains_iff_mem.1 hcontains
          exact Removal.index_lt_of_order (hfirst _ hmem) rfl
        simp only [Json.mapArrays, List.append_nil, keep_eraseIdx hfalling]
        simp only [contains_cons_array]
      · have hne : ∀ index, (⟨other, index⟩ : Removal) ≠ first := by
          rintro index rfl
          exact hother (List.prefix_refl _)
        simp only [List.contains_cons, beq_false_of_ne (hne _), Bool.false_or]
    rw [List.map_cons, Edit.applyAll, List.foldlM_cons, Removal.apply_edit hreach hindex]
    exact (ih hrest hlater).trans (congrArg Except.ok hmap)

end Scim.Patch
