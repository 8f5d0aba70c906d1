import Mathlib.Data.List.Forall2
import Scim.Json.Source
import Scim.Proofs.Json.Distinct
import Scim.Proofs.Json.Spelling

/-!
Values inside a value that a request is read from. They are kept but for the spelling of their
numbers, unless an object has the reserved name in front: such an object is never kept.
-/
namespace Scim.Json

open Source

variable {value other : Json} {items others : List Json} {members fields : List (String × Json)}

mutual

def stored : Json → Json
  | num spelling => num (respelled spelling)
  | arr items => arr (storedItems items)
  | obj members => obj (storedMembers members)
  | value => value

def storedItems : List Json → List Json
  | [] => []
  | item :: rest => stored item :: storedItems rest

def storedMembers : List (String × Json) → List (String × Json)
  | [] => []
  | (key, value) :: rest => (key, stored value) :: storedMembers rest

end

/-- No object at any depth has the reserved name in front. -/
inductive Unmarked : Json → Prop
  | null : Unmarked .null
  | bool (value : Bool) : Unmarked (.bool value)
  | num (spelling : String) : Unmarked (.num spelling)
  | str (text : String) : Unmarked (.str text)
  | arr {items : List Json} (hitems : ∀ item ∈ items, Unmarked item) : Unmarked (.arr items)
  | obj {members : List (String × Json)} (hfirst : (Members.keys members).head? ≠ some numberMark)
      (hmembers : ∀ member ∈ members, Unmarked member.2) : Unmarked (.obj members)

/-- The value that a request holds where the value it is read from has this one. -/
def received? (value : Json) : Option Json := (Source.ofJson value).value? none

/-- No number at any depth is the odd one of two decimals that a double lies halfway between. -/
inductive Untied : Json → Prop
  | null : Untied .null
  | bool (value : Bool) : Untied (.bool value)
  | num {spelling : String} (hspelling : ∀ a b, Denotes spelling a → ¬Tied a b) :
      Untied (.num spelling)
  | str (text : String) : Untied (.str text)
  | arr {items : List Json} (hitems : ∀ item ∈ items, Untied item) : Untied (.arr items)
  | obj {members : List (String × Json)} (hmembers : ∀ member ∈ members, Untied member.2) :
      Untied (.obj members)

theorem storedItems_eq_map (items : List Json) : storedItems items = items.map stored := by
  induction items with
  | nil => rfl
  | cons item items ih => rw [storedItems, ih, List.map_cons]

theorem storedMembers_eq_map (members : List (String × Json)) :
    storedMembers members = members.map fun member => (member.1, member.2.stored) := by
  induction members with
  | nil => rfl
  | cons member members ih => rw [storedMembers, ih, List.map_cons]

theorem keys_storedMembers (members : List (String × Json)) :
    Members.keys (storedMembers members) = Members.keys members := by
  rw [storedMembers_eq_map, Members.keys, List.map_map]
  rfl

theorem eq_null_of_isNull (h : value.isNull = true) : value = .null := by
  cases value with
  | null => rfl
  | _ => exact Bool.noConfusion h

theorem isNull_stored (value : Json) : value.stored.isNull = value.isNull := by
  cases value <;> rfl

mutual

/-- Storing a value once more changes nothing. -/
theorem stored_stored : ∀ value : Json, value.stored.stored = value.stored
  | null => rfl
  | bool _ => rfl
  | num spelling => by simp only [stored, respelled_respelled]
  | str _ => rfl
  | arr items => by simp only [stored, storedItems_storedItems items]
  | obj members => by simp only [stored, storedMembers_storedMembers members]

theorem storedItems_storedItems :
    ∀ items : List Json, storedItems (storedItems items) = storedItems items
  | [] => rfl
  | item :: items => by
    simp only [storedItems, stored_stored item, storedItems_storedItems items]

theorem storedMembers_storedMembers :
    ∀ members : List (String × Json), storedMembers (storedMembers members) = storedMembers members
  | [] => rfl
  | (key, value) :: members => by
    simp only [storedMembers, stored_stored value, storedMembers_storedMembers members]

end

theorem DistinctKeys.stored (h : value.DistinctKeys) : value.stored.DistinctKeys := by
  induction h with
  | null => exact .null
  | bool value => exact .bool value
  | num spelling => exact .num (respelled spelling)
  | str text => exact .str text
  | arr hitems ih =>
    refine .arr fun item hitem => ?_
    rw [storedItems_eq_map] at hitem
    obtain ⟨old, hold, rfl⟩ := List.mem_map.1 hitem
    exact ih old hold
  | obj hkeys hmembers ih =>
    refine .obj (by rwa [keys_storedMembers]) fun member hmember => ?_
    rw [storedMembers_eq_map] at hmember
    obtain ⟨old, hold, rfl⟩ := List.mem_map.1 hmember
    exact ih old hold

theorem Unmarked.stored (h : value.Unmarked) : value.stored.Unmarked := by
  induction h with
  | null => exact .null
  | bool value => exact .bool value
  | num spelling => exact .num (respelled spelling)
  | str text => exact .str text
  | arr hitems ih =>
    refine .arr fun item hitem => ?_
    rw [storedItems_eq_map] at hitem
    obtain ⟨old, hold, rfl⟩ := List.mem_map.1 hitem
    exact ih old hold
  | obj hfirst hmembers ih =>
    refine .obj (by rwa [keys_storedMembers]) fun member hmember => ?_
    rw [storedMembers_eq_map] at hmember
    obtain ⟨old, hold, rfl⟩ := List.mem_map.1 hmember
    exact ih old hold

/-- The numbers of a stored value are those of the value, if none of them is at a half. -/
theorem respelled_stored (h : value.Untied) : value.Respelled value.stored := by
  induction h with
  | null => exact .null
  | bool value => exact .bool value
  | @num spelling hspelling =>
    rw [stored]
    rcases respelled_eq_or_denotes spelling with hkept | ⟨a, b, ha, hb, rfl | htied⟩
    · rw [hkept]
      exact .num spelling
    · exact .number ha hb
    · exact absurd htied (hspelling a b ha)
  | str text => exact .str text
  | arr hitems ih =>
    rw [stored, storedItems_eq_map]
    exact .arr (List.forall₂_map_right_iff.2 (List.forall₂_same.2 ih))
  | obj hmembers ih =>
    refine .obj (keys_storedMembers _).symm ?_
    rw [storedMembers_eq_map, List.map_map, List.forall₂_map_left_iff, List.forall₂_map_right_iff,
      List.forall₂_same]
    exact ih

theorem values?_ofItems_iff : values? none (ofItems items) = some others ↔
    List.Forall₂ (fun item other => received? item = some other) items others := by
  induction items generalizing others with
  | nil => simp [ofItems, values?, eq_comm]
  | cons item items ih =>
    simp only [ofItems, values?, Option.bind_eq_bind, Option.bind_eq_some_iff, Option.pure_def,
      Option.some.injEq, List.forall₂_cons_left_iff, ih]
    constructor
    · rintro ⟨value, hvalue, values, hvalues, rfl⟩
      exact ⟨value, values, hvalue, hvalues, rfl⟩
    · rintro ⟨value, values, hvalue, hvalues, rfl⟩
      exact ⟨value, hvalue, values, hvalues, rfl⟩

/-- An array is received element by element. -/
theorem received?_arr_iff : received? (.arr items) = some (.arr others) ↔
    List.Forall₂ (fun item other => received? item = some other) items others := by
  rw [← values?_ofItems_iff, received?, Source.ofJson, value?, Option.map_eq_some_iff]
  simp

/-- Members of distinct names are read one behind the other. -/
theorem memberValues?_ofMembers_iff {found result : List (String × Json)}
    (h : (Members.keys (found ++ members)).Nodup) :
    memberValues? none found (ofMembers members) = some result ↔
      ∃ fields, result = found ++ fields ∧
        List.Forall₂ (fun member field => member.1 = field.1 ∧ received? member.2 = some field.2)
          members fields := by
  induction members generalizing found with
  | nil => simp [ofMembers, memberValues?, eq_comm]
  | cons member members ih =>
    obtain ⟨key, value⟩ := member
    have hkey : key ∉ Members.keys found := by
      intro hmem
      rw [Members.keys, List.map_append] at h
      exact (List.nodup_append.1 h).2.2 key hmem key List.mem_cons_self rfl
    have hnext : ∀ new : Json, (Members.keys ((found ++ [(key, new)]) ++ members)).Nodup := by
      intro new
      simpa [Members.keys] using h
    simp only [ofMembers, memberValues?, Option.bind_eq_bind, Option.bind_some,
      Option.bind_eq_some_iff, Members.set_of_notMem hkey, ih (hnext _), List.forall₂_cons_left_iff]
    constructor
    · rintro ⟨new, hnew, fields, rfl, hfields⟩
      exact ⟨(key, new) :: fields, by simp, (key, new), fields, ⟨rfl, hnew⟩, hfields, rfl⟩
    · rintro ⟨_, rfl, ⟨_, new⟩, fields, ⟨rfl, hnew⟩, hfields, rfl⟩
      exact ⟨new, hnew, fields, by simp, hfields⟩

/-- An object that has the reserved name in front is read as no object. -/
theorem markedNumber?_ofMembers (members fields : List (String × Json)) :
    (markedNumber? (ofMembers members) = none ↔
      (Members.keys members).head? ≠ some numberMark) ∧
    markedNumber? (ofMembers members) ≠ some (some (.obj fields)) := by
  cases members with
  | nil => simp [ofMembers, markedNumber?, Members.keys]
  | cons member members =>
    obtain ⟨key, value⟩ := member
    simp only [ofMembers, markedNumber?, Members.keys, List.map_cons, List.head?_cons, ne_eq,
      Option.some.injEq]
    split
    · rename_i hkey
      split
      · simp [hkey]
      · simp [hkey]
    · rename_i hkey
      simp [hkey]

/-- An object without the reserved name in front is received member by member. -/
theorem received?_obj_iff (h : (Members.keys members).Nodup) :
    received? (.obj members) = some (.obj fields) ↔
      (Members.keys members).head? ≠ some numberMark ∧
        List.Forall₂ (fun member field => member.1 = field.1 ∧ received? member.2 = some field.2)
          members fields := by
  have hall : (Members.keys ([] ++ members)).Nodup := h
  obtain ⟨hnone, hsome⟩ := markedNumber?_ofMembers members fields
  rw [← hnone, received?, Source.ofJson, value?]
  split
  · rename_i number hnumber
    simp only [hnumber, reduceCtorEq, false_and, iff_false]
    rintro rfl
    exact hsome hnumber
  · rename_i hnumber
    simp [hnumber, memberValues?_ofMembers_iff hall]

/-- Without the reserved name a value is kept but for the spelling of its numbers. -/
theorem received?_eq_stored (hdistinct : value.DistinctKeys) (h : value.Unmarked) :
    received? value = some value.stored := by
  induction h with
  | null => rfl
  | bool value => rfl
  | num spelling => rfl
  | str text => rfl
  | arr hitems ih =>
    rw [stored, received?_arr_iff, storedItems_eq_map, List.forall₂_map_right_iff, List.forall₂_same]
    exact fun item hitem => ih item hitem (hdistinct.item hitem)
  | obj hfirst hmembers ih =>
    rw [stored, received?_obj_iff hdistinct.keys_nodup, storedMembers_eq_map,
      List.forall₂_map_right_iff, List.forall₂_same]
    exact ⟨hfirst, fun member hmember => ⟨rfl, ih member hmember (hdistinct.member hmember)⟩⟩

/-- A value that is received unchanged has the reserved name nowhere in front. -/
theorem unmarked_of_received? (hdistinct : value.DistinctKeys) (h : received? value = some value) :
    value.Unmarked := by
  induction hdistinct with
  | null => exact .null
  | bool value => exact .bool value
  | num spelling => exact .num spelling
  | str text => exact .str text
  | arr hitems ih =>
    have hsame := List.forall₂_same.1 (received?_arr_iff.1 h)
    exact .arr fun item hitem => ih item hitem (hsame item hitem)
  | obj hkeys hmembers ih =>
    obtain ⟨hfirst, hforall⟩ := (received?_obj_iff hkeys).1 h
    have hsame := List.forall₂_same.1 hforall
    exact .obj hfirst fun member hmember => ih member hmember (hsame member hmember).2

/-- A value is kept exactly if it is without the reserved name and its numbers are spelled as they
are stored. -/
theorem received?_eq_self_iff (hdistinct : value.DistinctKeys) :
    received? value = some value ↔ value.Unmarked ∧ value.stored = value := by
  constructor
  · intro h
    have hunmarked := unmarked_of_received? hdistinct h
    rw [received?_eq_stored hdistinct hunmarked] at h
    exact ⟨hunmarked, Option.some.inj h⟩
  · rintro ⟨hunmarked, hstored⟩
    rw [received?_eq_stored hdistinct hunmarked, hstored]

end Scim.Json
