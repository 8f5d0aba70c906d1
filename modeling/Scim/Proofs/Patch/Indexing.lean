import Scim.Proofs.Patch.Exchange

/-!
The tokens that edits take for array indices. An index is spelled as it is printed, or by a plus sign
and any digits of it, and it must be below the length of the array, or at most the length where an
element is added. Without the plus sign these are the indices that a lookup takes.
-/
namespace Scim.Edit

open Patch (indexToken)
open Pointer Digits

/-- A token spells an index by its printed digits, or by any digits behind a plus sign. -/
inductive Spells : String → Nat → Prop
  | printed (index : Nat) : Spells (indexToken index) index
  | signed {digits : List Char} (hne : digits ≠ [])
      (hdigits : ∀ c ∈ digits, c.isDigit = true) :
      Spells (String.ofList ('+' :: digits)) (Nat.ofDigitChars 10 digits 0)

variable {token pointer : String} {parents : List String} {document : Json}
  {items : List Json} {position bound : Nat}

theorem Spells.index_eq_ok (h : Spells token position) (hlt : position < bound) :
    index token bound = .ok position := by
  cases h with
  | printed => rw [index_indexToken, if_pos hlt]
  | signed hne hdigits =>
    simp only [index, String.toList_ofList, List.head?_cons, if_true, List.drop_one, List.tail_cons,
      Except.ite_eq_ok_iff, and_true]
    exact ⟨.inr (by simp), hne, List.all_eq_true.2 hdigits, hlt⟩

/-- An index is read from the tokens that spell it, where it is below the bound. -/
theorem index_eq_ok_iff :
    index token bound = .ok position ↔ Spells token position ∧ position < bound := by
  refine ⟨fun h => ⟨?_, lt_of_index h⟩, fun h => h.1.index_eq_ok h.2⟩
  by_cases hsign : token.toList.head? = some '+'
  · obtain ⟨digits, hdigits⟩ := List.head?_eq_some_iff.1 hsign
    simp only [index, Except.ite_eq_ok_iff, hdigits, List.head?_cons, if_true, List.drop_one,
      List.tail_cons] at h
    obtain ⟨⟨-, hne, hall, -⟩, rfl⟩ := h
    rw [← String.ofList_toList (s := token), hdigits]
    exact .signed hne (List.all_eq_true.1 hall)
  · rw [eq_indexToken_of_index h hsign]
    exact .printed position

/-- A token is an index exactly if it spells one below the bound. -/
theorem exists_index_iff : (∃ position, index token bound = .ok position) ↔
    ∃ position < bound, Spells token position := by
  simp only [index_eq_ok_iff, and_comm]

/-- Without a plus sign an index has one spelling. -/
theorem spells_iff (hsign : token.toList.head? ≠ some '+') :
    Spells token position ↔ token = indexToken position := by
  constructor
  · intro h
    exact eq_indexToken_of_index (h.index_eq_ok (Nat.lt_succ_self position)) hsign
  · rintro rfl
    exact .printed position

theorem exists_element_iff : (find [token] (.arr items)).isSome = true ↔
    ∃ position < items.length, Spells token position := by
  have hfind : find [token] (.arr items) = lookup [key token (.arr items)] (.arr items) := rfl
  rw [hfind, Option.isSome_iff_exists, ← exists_index_iff]
  constructor
  · rintro ⟨child, hchild⟩
    obtain ⟨position, hposition, -⟩ := lookup_key_arr.1 hchild
    exact ⟨position, hposition⟩
  · rintro ⟨position, hposition⟩
    have hitem := List.getElem?_eq_getElem (lt_of_index hposition)
    exact ⟨_, lookup_key_arr.2 ⟨position, hposition, hitem⟩⟩

/-- An element can be added at the dash or at an index up to the length. -/
theorem exists_addChild_iff (value : Json) :
    (∃ after, addChild token value (.arr items) = .ok after) ↔
      token = "-" ∨ ∃ position ≤ items.length, Spells token position := by
  by_cases hdash : token = "-"
  · simp [addChild, hdash]
  · simp only [addChild, hdash, if_false, Except.map_eq_ok_iff, false_or, ← Nat.lt_succ_iff,
      ← exists_index_iff]
    constructor
    · rintro ⟨after, position, hposition, -⟩
      exact ⟨position, hposition⟩
    · rintro ⟨position, hposition⟩
      exact ⟨_, position, hposition, rfl⟩

/-- At an array an edit succeeds for the indices of its elements, and an addition also for the dash
and for the index behind the last element. All spellings are printed ones but for a plus sign. -/
theorem accepts_iff_spells (value : Json) (hparse : Pointer.parse pointer = some (parents ++ [token]))
    (hitems : find parents document = some (.arr items)) :
    ((∃ after, applyAll [⟨.replace, pointer, some value⟩] document = .ok after) ↔
      ∃ position < items.length, Spells token position) ∧
    ((∃ after, applyAll [⟨.remove, pointer, none⟩] document = .ok after) ↔
      ∃ position < items.length, Spells token position) ∧
    ((∃ after, applyAll [⟨.add, pointer, some value⟩] document = .ok after) ↔
      token = "-" ∨ ∃ position ≤ items.length, Spells token position) ∧
    (token.toList.head? ≠ some '+' →
      ∀ position, Spells token position ↔ token = indexToken position) := by
  have helement : (find (parents ++ [token]) document).isSome = true ↔
      ∃ position < items.length, Spells token position := by
    rw [find_append, hitems, Option.bind_some, exists_element_iff]
  simp only [applyAll_singleton, apply, hparse, located_eq_ok_iff]
  refine ⟨?_, ?_, ?_, fun hsign position => spells_iff hsign⟩
  · rw [replace, exists_update_iff, ← helement, Option.isSome_iff_exists]
    simp
  · rw [exists_remove_iff_find, helement]
    simp
  · rw [add_of_find hitems, exists_update_iff, ← exists_addChild_iff value]
    simp only [hitems, Option.some.injEq]
    constructor
    · rintro ⟨_, after, rfl, hafter⟩
      exact ⟨after, hafter⟩
    · rintro ⟨after, hafter⟩
      exact ⟨_, after, rfl, hafter⟩

/-- The index behind the last one of two elements. -/
theorem accepts_iff_spells_sample : ∃ document,
    document = .obj [("members", .arr [.str "a", .str "b"])] ∧
    Pointer.parse "/members/2" = some (["members"] ++ ["2"]) ∧
    find ["members"] document = some (.arr [.str "a", .str "b"]) ∧
    (¬∃ after, applyAll [⟨.replace, "/members/2", some .null⟩] document = .ok after) ∧
    (¬∃ after, applyAll [⟨.remove, "/members/2", none⟩] document = .ok after) ∧
    ∃ after, applyAll [⟨.add, "/members/2", some .null⟩] document = .ok after := by
  have hparse : Pointer.parse "/members/2" = some (["members"] ++ ["2"]) := rfl
  have hitems : find ["members"] (.obj [("members", .arr [.str "a", .str "b"])]) =
      some (.arr [.str "a", .str "b"]) := rfl
  obtain ⟨hreplace, hremove, hadd, hprinted⟩ := accepts_iff_spells .null hparse hitems
  have hspells : ∀ position, Spells "2" position → position = 2 := by
    intro position h
    have htoken : indexToken 2 = indexToken position := (hprinted (by simp) position).1 h
    exact (indexToken_injective htoken).symm
  have hnone : ¬∃ position < [Json.str "a", .str "b"].length, Spells "2" position := by
    rintro ⟨position, hlt, h⟩
    rw [hspells position h] at hlt
    simp at hlt
  exact ⟨_, rfl, hparse, hitems, mt hreplace.1 hnone, mt hremove.1 hnone,
    hadd.2 (.inr ⟨2, Nat.le_refl 2, .printed 2⟩)⟩

/-- Removing at a signed index takes an element out, although no index is printed so. -/
theorem remove_signed_index :
    applyAll [⟨.remove, "/members/+1", none⟩] (.obj [("members", .arr [.str "a", .str "b"])]) =
      .ok (.obj [("members", .arr [.str "a"])]) ∧
    ∀ position, "+1" ≠ indexToken position := by
  refine ⟨by decide +kernel, fun position h => ?_⟩
  have hhead := head?_toDigits_ne (show '+'.isDigit = false from rfl) position
  rw [← String.toList_ofList (l := Nat.toDigits 10 position)] at hhead
  exact hhead (congrArg (fun token => token.toList.head?) h.symm)

end Scim.Edit
