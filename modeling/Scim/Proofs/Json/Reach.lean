import Scim.Json.Basic
import Scim.Proofs.Json.Members

/-!
Places in a document that are reached through members of objects alone. The value at such a place can
be exchanged, and an operation on arrays can be mapped over all arrays at such places.
-/
namespace Scim.Json

/-- The value at a place. Of several members of one name a place lies in the first one. -/
def reach : List String → Json → Option Json
  | [], value => some value
  | key :: path, obj members => (Members.find? key members).bind (reach path)
  | _ :: _, _ => none

def put : List String → Json → Json → Json
  | [], value, _ => value
  | key :: path, value, obj members =>
    match Members.find? key members with
    | some child => obj (Members.set key (put path value child) members)
    | none => obj members
  | _ :: _, _, document => document

def elsewhere (key : String) (change : List String → List Json → List Json) :
    List String → List Json → List Json :=
  fun path items => if path.head? = some key then items else change path items

mutual

/-- Changes every array that is reached through members, depending on its place. What the elements of
arrays hold stays as it is. -/
def mapArrays (change : List String → List Json → List Json) : Json → Json
  | arr items => arr (change [] items)
  | obj members => obj (mapMembers change members)
  | value => value

def mapMembers (change : List String → List Json → List Json) :
    List (String × Json) → List (String × Json)
  | [] => []
  | (key, value) :: rest =>
    (key, mapArrays (fun path => change (key :: path)) value) ::
      mapMembers (elsewhere key change) rest

end

theorem elsewhere_self (key : String) (change : List String → List Json → List Json)
    (path : List String) : elsewhere key change (key :: path) = fun items => items :=
  funext fun _ => if_pos rfl

theorem elsewhere_of_ne {key name : String} (h : name ≠ key)
    (change : List String → List Json → List Json) (path : List String) :
    elsewhere key change (name :: path) = change (name :: path) :=
  funext fun _ => if_neg fun hkey => h (Option.some.inj hkey)

theorem reach_cons_eq_some {key : String} {path : List String} {document value : Json}
    (h : reach (key :: path) document = some value) :
    ∃ members child, document = obj members ∧ Members.find? key members = some child ∧
      reach path child = some value := by
  cases document with
  | obj members =>
    obtain ⟨child, hchild, hvalue⟩ := Option.bind_eq_some_iff.1 h
    exact ⟨members, child, rfl, hchild, hvalue⟩
  | _ => simp [reach] at h

theorem reach_obj {key : String} {members : List (String × Json)} {child : Json}
    (h : Members.find? key members = some child) (path : List String) :
    reach (key :: path) (obj members) = reach path child := by
  rw [reach, h]
  rfl

theorem put_obj {key : String} {members : List (String × Json)} {child : Json}
    (h : Members.find? key members = some child) (path : List String) (value : Json) :
    put (key :: path) value (obj members) =
      obj (Members.set key (put path value child) members) := by
  rw [put, h]

/-- What is put at a place is found there. -/
theorem reach_put_self {path : List String} {document old : Json}
    (h : reach path document = some old) (value : Json) :
    reach path (put path value document) = some value := by
  induction path generalizing document with
  | nil => rfl
  | cons key path ih =>
    obtain ⟨members, child, rfl, hchild, hold⟩ := reach_cons_eq_some h
    rw [put_obj hchild, reach_obj (Members.find?_set_self _ _ _)]
    exact ih hold

theorem put_put (path : List String) (first value document : Json) :
    put path value (put path first document) = put path value document := by
  induction path generalizing document with
  | nil => rfl
  | cons key path ih =>
    cases document with
    | obj members =>
      cases hchild : Members.find? key members with
      | none =>
        have hkeep : put (key :: path) first (obj members) = obj members := by rw [put, hchild]
        rw [hkeep]
      | some child =>
        rw [put_obj hchild, put_obj hchild, put_obj (Members.find?_set_self _ _ _),
          Members.set_set, ih]
    | _ => rfl

theorem put_of_reach {path : List String} {document value : Json}
    (h : reach path document = some value) : put path value document = document := by
  induction path generalizing document with
  | nil => exact (Option.some.inj h).symm
  | cons key path ih =>
    obtain ⟨members, child, rfl, hchild, hvalue⟩ := reach_cons_eq_some h
    rw [put_obj hchild, ih hvalue, Members.set_of_find? hchild]

/-- Other places keep their values, as long as none of the two places lies inside the other. -/
theorem reach_put_of_apart {path other : List String} (hpath : ¬path <+: other)
    (hother : ¬other <+: path) (value document : Json) :
    reach other (put path value document) = reach other document := by
  induction path generalizing other document with
  | nil => exact absurd List.nil_prefix hpath
  | cons key path ih =>
    cases other with
    | nil => exact absurd List.nil_prefix hother
    | cons name other =>
      cases document with
      | obj members =>
        cases hchild : Members.find? key members with
        | none => rw [put, hchild]
        | some child =>
          rw [put_obj hchild]
          by_cases hkey : key = name
          · subst hkey
            have hpath : ¬path <+: other := fun h => hpath ((List.prefix_cons_inj key).2 h)
            have hother : ¬other <+: path := fun h => hother ((List.prefix_cons_inj key).2 h)
            rw [reach_obj (Members.find?_set_self _ _ _), reach_obj hchild, ih hpath hother]
          · rw [reach, reach, Members.find?_set_of_ne hkey]
      | _ => rfl

mutual

/-- Only arrays that are there count. -/
theorem mapArrays_congr : ∀ {document : Json} {change change' : List String → List Json → List Json},
    (∀ path items, reach path document = some (arr items) → change path items = change' path items) →
    mapArrays change document = mapArrays change' document
  | null, _, _, _ => rfl
  | bool _, _, _, _ => rfl
  | num _, _, _, _ => rfl
  | str _, _, _, _ => rfl
  | arr items, _, _, h => by rw [mapArrays, mapArrays, h [] items rfl]
  | obj members, _, _, h => by
    rw [mapArrays, mapArrays, mapMembers_congr]
    intro key child path items hchild hpath
    exact h (key :: path) items (by rw [reach_obj hchild, hpath])

theorem mapMembers_congr :
    ∀ {members : List (String × Json)} {change change' : List String → List Json → List Json},
      (∀ key child path items, Members.find? key members = some child →
        reach path child = some (arr items) →
        change (key :: path) items = change' (key :: path) items) →
      mapMembers change members = mapMembers change' members
  | [], _, _, _ => rfl
  | (key, value) :: rest, change, change', h => by
    have hvalue : mapArrays (fun path => change (key :: path)) value =
        mapArrays (fun path => change' (key :: path)) value := by
      refine mapArrays_congr fun path items hpath => ?_
      exact h key value path items (by simp [Members.find?_cons]) hpath
    have hrest : mapMembers (elsewhere key change) rest =
        mapMembers (elsewhere key change') rest := by
      refine mapMembers_congr fun name child path items hchild hpath => ?_
      by_cases hname : name = key
      · rw [hname, elsewhere_self, elsewhere_self]
      · have hfind : Members.find? name ((key, value) :: rest) = some child := by
          rw [Members.find?_cons, if_neg (Ne.symm hname), hchild]
        rw [elsewhere_of_ne hname, elsewhere_of_ne hname]
        exact h name child path items hfind hpath
    rw [mapMembers, mapMembers, hvalue, hrest]

end

theorem elsewhere_keep (key : String) : (elsewhere key fun _ items => items) = fun _ items => items :=
  funext fun _ => funext fun items => ite_self items

mutual

theorem mapArrays_keep : ∀ document : Json, mapArrays (fun _ items => items) document = document
  | null => rfl
  | bool _ => rfl
  | num _ => rfl
  | str _ => rfl
  | arr _ => rfl
  | obj members => by rw [mapArrays, mapMembers_keep]

theorem mapMembers_keep :
    ∀ members : List (String × Json), mapMembers (fun _ items => items) members = members
  | [] => rfl
  | (key, value) :: rest => by
    rw [mapMembers, mapArrays_keep value, elsewhere_keep, mapMembers_keep rest]

end

/-- Changing the arrays after a member got a new value comes to one change of the old members, if it
does for the two values and the changes are the same elsewhere. -/
theorem mapMembers_set {key : String} {members : List (String × Json)} {child value : Json}
    {change change' : List String → List Json → List Json}
    (hchild : Members.find? key members = some child)
    (hvalue : mapArrays (fun path => change (key :: path)) value =
      mapArrays (fun path => change' (key :: path)) child)
    (hother : ∀ name path, name ≠ key → change (name :: path) = change' (name :: path)) :
    mapMembers change (Members.set key value members) = mapMembers change' members := by
  induction members generalizing change change' with
  | nil => simp [Members.find?] at hchild
  | cons member rest ih =>
    obtain ⟨name, first⟩ := member
    by_cases hname : name = key
    · subst hname
      obtain rfl : first = child := by simpa [Members.find?_cons] using hchild
      have hrest : mapMembers (elsewhere name change) rest =
          mapMembers (elsewhere name change') rest := by
        refine mapMembers_congr fun other _ path items _ _ => ?_
        by_cases heq : other = name
        · rw [heq, elsewhere_self, elsewhere_self]
        · rw [elsewhere_of_ne heq, elsewhere_of_ne heq, hother other path heq]
      rw [Members.set, if_pos rfl, mapMembers, mapMembers, hvalue, hrest]
    · have hfirst : (fun path => change (name :: path)) = fun path => change' (name :: path) :=
        funext fun path => hother name path hname
      have hrest : mapMembers (elsewhere name change) (Members.set key value rest) =
          mapMembers (elsewhere name change') rest := by
        refine ih ?_ ?_ fun other path hkey => ?_
        · simpa [Members.find?_cons, hname] using hchild
        · simp only [elsewhere_of_ne (Ne.symm hname), hvalue]
        · by_cases heq : other = name
          · rw [heq, elsewhere_self, elsewhere_self]
          · rw [elsewhere_of_ne heq, elsewhere_of_ne heq, hother other path hkey]
      rw [Members.set, if_neg hname, mapMembers, mapMembers, hfirst, hrest]

theorem mapArrays_put {path : List String} {document old value : Json}
    {change change' : List String → List Json → List Json} (hold : reach path document = some old)
    (hvalue : mapArrays (fun inner => change (path ++ inner)) value =
      mapArrays (fun inner => change' (path ++ inner)) old)
    (hother : ∀ other, ¬path <+: other → change other = change' other) :
    mapArrays change (put path value document) = mapArrays change' document := by
  induction path generalizing document change change' with
  | nil =>
    obtain rfl : document = old := Option.some.inj hold
    exact hvalue
  | cons key path ih =>
    obtain ⟨members, child, rfl, hchild, hold⟩ := reach_cons_eq_some hold
    rw [put_obj hchild, mapArrays, mapArrays]
    refine congrArg obj (mapMembers_set hchild (ih hold hvalue fun other hpath => ?_)
      fun name other hname => ?_)
    · exact hother (key :: other) fun h => hpath ((List.prefix_cons_inj key).1 h)
    · exact hother (name :: other) fun h => hname (List.cons_prefix_cons.1 h).1.symm

/-- Changing one array is exchanging it. -/
theorem mapArrays_eq_put {path : List String} {document : Json} {items : List Json}
    {change : List String → List Json → List Json} (hreach : reach path document = some (arr items))
    (hother : ∀ other others, other ≠ path → change other others = others) :
    mapArrays change document = put path (arr (change path items)) document := by
  have hput : mapArrays (fun _ others => others) (put path (arr (change path items)) document) =
      mapArrays change document := by
    apply mapArrays_put hreach
    · simp only [mapArrays, List.append_nil]
    · intro other hpath
      funext others
      refine (hother other others ?_).symm
      rintro rfl
      exact hpath (List.prefix_refl other)
  rw [← hput, mapArrays_keep]

end Scim.Json
