import Scim.Json.Basic
import Scim.Proofs.Json.Members

/-!
Documents whose objects have distinct names at any depth. Setting, merging and erasing members keep a
document like that.
-/
namespace Scim

inductive Json.DistinctKeys : Json → Prop
  | null : DistinctKeys .null
  | bool (value : Bool) : DistinctKeys (.bool value)
  | num (spelling : String) : DistinctKeys (.num spelling)
  | str (text : String) : DistinctKeys (.str text)
  | arr {items : List Json} (hitems : ∀ item ∈ items, DistinctKeys item) : DistinctKeys (.arr items)
  | obj {members : List (String × Json)} (hkeys : (Members.keys members).Nodup)
      (hmembers : ∀ member ∈ members, DistinctKeys member.2) : DistinctKeys (.obj members)

namespace Json.DistinctKeys

variable {key : String} {members fields : List (String × Json)} {items : List Json} {value : Json}

theorem keys_nodup (h : (Json.obj members).DistinctKeys) : (Members.keys members).Nodup := by
  cases h with
  | obj hkeys hmembers => exact hkeys

theorem member (h : (Json.obj members).DistinctKeys) {field : String × Json} (hfield : field ∈ members) :
    field.2.DistinctKeys := by
  cases h with
  | obj hkeys hmembers => exact hmembers field hfield

theorem item (h : (Json.arr items).DistinctKeys) (hvalue : value ∈ items) : value.DistinctKeys := by
  cases h with
  | arr hitems => exact hitems value hvalue

theorem find (h : (Json.obj members).DistinctKeys) (hvalue : Members.find? key members = some value) :
    value.DistinctKeys :=
  h.member (Members.mem_of_find? hvalue)

theorem getD (h : (Json.arr items).DistinctKeys) (index : Nat) :
    (items.getD index Json.null).DistinctKeys := by
  rw [List.getD_eq_getElem?_getD]
  cases hitem : items[index]? with
  | none => exact .null
  | some item => exact h.item (List.mem_of_getElem? hitem)

theorem single (key : String) (h : value.DistinctKeys) :
    (Json.obj [(key, value)]).DistinctKeys := by
  refine .obj (List.pairwise_singleton _ key) fun field hfield => ?_
  rwa [List.mem_singleton.1 hfield]

theorem set (h : (Json.obj members).DistinctKeys) (key : String) (hvalue : value.DistinctKeys) :
    (Json.obj (Members.set key value members)).DistinctKeys := by
  refine .obj (Members.nodup_keys_set h.keys_nodup value) fun field hfield => ?_
  rcases Members.mem_of_mem_set hfield with rfl | hfield
  · exact hvalue
  · exact h.member hfield

theorem merge (h : (Json.obj members).DistinctKeys) (hfields : ∀ field ∈ fields, field.2.DistinctKeys) :
    (Json.obj (Members.merge members fields)).DistinctKeys := by
  induction fields generalizing members with
  | nil => exact h
  | cons field fields ih =>
    have hset := h.set field.1 (hfields field List.mem_cons_self)
    exact ih hset fun other hother => hfields other (List.mem_cons_of_mem field hother)

theorem erase (h : (Json.obj members).DistinctKeys) (key : String) :
    (Json.obj (Members.erase key members)).DistinctKeys :=
  .obj (Members.nodup_keys_erase h.keys_nodup) fun _ hfield => h.member (Members.erase_subset hfield)

theorem setItem (h : (Json.arr items).DistinctKeys) (index : Nat) (hvalue : value.DistinctKeys) :
    (Json.arr (items.set index value)).DistinctKeys := by
  refine .arr fun item hitem => ?_
  rcases List.mem_or_eq_of_mem_set hitem with hitem | rfl
  · exact h.item hitem
  · exact hvalue

end Json.DistinctKeys

end Scim
