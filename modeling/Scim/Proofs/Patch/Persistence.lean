import Scim.Proofs.Json.Reach
import Scim.Proofs.Patch.Distinct
import Scim.Proofs.Patch.Pointer

/-!
Elements that stay where they are. An element keeps its place and its value under every edit that
neither reaches the array or something around it, nor the element itself, nor changes the number of
elements in front of it.
-/
namespace Scim.Patch

open Members

/-- A value is the element at an index of the array at a place. The objects on the way have distinct
names. -/
def Stands (index : Nat) (value : Json) : List String → Json → Prop
  | [], .arr items => items[index]? = some value
  | key :: path, .obj members =>
    (keys members).Nodup ∧ ∃ child, find? key members = some child ∧ Stands index value path child
  | _, _ => False

/-- An edit that follows some tokens spares an element of the array at a place: it does not end at
the array or on the way, below the array it does not go to the element, and it adds and removes
elements behind it only. -/
def Spares (op : PatchOp) (index : Nat) : List String → List String → Prop
  | _, [] => False
  | [], token :: rest => ∀ bound position, Edit.index token bound = .ok position →
      if rest = [] ∧ op ≠ .replace then index < position else position ≠ index
  | key :: path, token :: rest => token = key → Spares op index path rest

variable {op : PatchOp} {index : Nat} {value : Json} {path : List String} {document result : Json}

theorem exists_reach_of_stands (h : Stands index value path document) :
    ∃ items, document.reach path = some (.arr items) ∧ items[index]? = some value := by
  induction path generalizing document with
  | nil =>
    cases document with
    | arr items => exact ⟨items, rfl, h⟩
    | _ => exact absurd h id
  | cons key path ih =>
    cases document with
    | obj members =>
      obtain ⟨-, child, hchild, h⟩ := h
      rw [Json.reach_obj hchild]
      exact ih h
    | _ => exact absurd h id

/-- What is reached under distinct names stands there. -/
theorem stands_of_reach {items : List Json} (hdistinct : document.DistinctKeys)
    (hreach : document.reach path = some (.arr items)) (hvalue : items[index]? = some value) :
    Stands index value path document := by
  induction path generalizing document with
  | nil =>
    obtain rfl : document = .arr items := Option.some.inj hreach
    exact hvalue
  | cons key path ih =>
    obtain ⟨members, child, rfl, hchild, hreach⟩ := Json.reach_cons_eq_some hreach
    exact ⟨hdistinct.keys_nodup, child, hchild, ih (hdistinct.find hchild) hreach⟩

theorem Stands.set_of_ne {key token : String} {members : List (String × Json)} (hne : token ≠ key)
    (h : Stands index value (key :: path) (.obj members)) (added : Json) :
    Stands index value (key :: path) (.obj (set token added members)) := by
  obtain ⟨hnodup, child, hchild, h⟩ := h
  exact ⟨nodup_keys_set hnodup added, child, by rw [find?_set_of_ne hne, hchild], h⟩

theorem Stands.set_self {key : String} {members : List (String × Json)} {child : Json}
    (hnodup : (keys members).Nodup) (h : Stands index value path child) :
    Stands index value (key :: path) (.obj (set key child members)) :=
  ⟨nodup_keys_set hnodup child, child, find?_set_self key child members, h⟩

theorem Stands.set_element {items : List Json} {position : Nat}
    (h : Stands index value [] (.arr items)) (hne : position ≠ index) (changed : Json) :
    Stands index value [] (.arr (items.set position changed)) := by
  rw [Stands, List.getElem?_set_ne hne]
  exact h

/-- An element outlives a change of another child, and one of its own way if that spares it. -/
theorem stands_descend {token : String} {change : Json → Except EditFault Json}
    (h : Stands index value path document) (hresult : Edit.descend token change document = .ok result)
    (hindex : path = [] → ∀ bound position, Edit.index token bound = .ok position → position ≠ index)
    (hbelow : ∀ rest, path = token :: rest → ∀ child changed, Stands index value rest child →
      change child = .ok changed → Stands index value rest changed) :
    Stands index value path result := by
  cases path with
  | nil =>
    cases document with
    | arr items =>
      obtain ⟨position, hposition, hresult⟩ := Except.bind_eq_ok_iff.1 hresult
      obtain ⟨changed, -, hresult⟩ := Except.bind_eq_ok_iff.1 hresult
      obtain rfl := Except.ok.inj hresult
      exact h.set_element (hindex rfl _ position hposition) changed
    | _ => exact absurd h id
  | cons key path =>
    cases document with
    | obj members =>
      rw [Edit.descend] at hresult
      split at hresult
      · simp at hresult
      · rename_i child hchild
        obtain ⟨changed, hchanged, rfl⟩ := Except.map_eq_ok_iff.1 hresult
        by_cases hkey : token = key
        · subst hkey
          obtain ⟨hnodup, found, hfound, h⟩ := h
          obtain rfl := Option.some.inj (hchild.symm.trans hfound)
          exact .set_self hnodup (hbelow path rfl child changed h hchanged)
        · exact h.set_of_ne hkey changed
    | _ => exact absurd h id

theorem not_spares_nil : ¬Spares op index path [] := by
  cases path <;> exact id

theorem Spares.ne_index {token : String} {rest : List String}
    (h : Spares op index [] (token :: rest)) {bound position : Nat}
    (hposition : Edit.index token bound = .ok position) : position ≠ index := by
  have hspares := h bound position hposition
  split at hspares
  · omega
  · exact hspares

theorem stands_replace {tokens : List String} {new : Json} (h : Stands index value path document)
    (hspares : Spares .replace index path tokens)
    (hresult : Edit.replace tokens new document = .ok result) : Stands index value path result := by
  induction tokens generalizing path document result with
  | nil => exact absurd hspares not_spares_nil
  | cons token tokens ih =>
    have hdescend : Edit.descend token (Edit.replace tokens new) document = .ok result := hresult
    refine stands_descend h hdescend ?_ fun rest hpath child changed hchild hchanged => ?_
    · rintro rfl bound position hposition
      exact hspares.ne_index hposition
    · subst hpath
      exact ih hchild (hspares rfl) hchanged

theorem remove_cons_cons (token next : String) (rest : List String) (document : Json) :
    Edit.remove (token :: next :: rest) document =
      Edit.descend token (Edit.remove (next :: rest)) document := by
  have hlast : (token :: next :: rest).getLast? = (next :: rest).getLast? := rfl
  cases hnext : (next :: rest).getLast? with
  | none => simp at hnext
  | some last =>
    have hbelow : Edit.remove (next :: rest) =
        Edit.update (Edit.removeChild last) (next :: rest).dropLast := by
      funext child
      simp only [Edit.remove, hnext]
    rw [hbelow]
    simp only [Edit.remove, hlast, hnext]
    rfl

theorem stands_removeChild {token : String} (h : Stands index value path document)
    (hspares : Spares .remove index path [token])
    (hresult : Edit.removeChild token document = .ok result) :
    Stands index value path result := by
  cases path with
  | nil =>
    cases document with
    | arr items =>
      obtain ⟨position, hposition, rfl⟩ := Except.map_eq_ok_iff.1 hresult
      have hbehind : index < position := by
        simpa using hspares _ position hposition
      rw [Stands, List.getElem?_eraseIdx_of_lt hbehind]
      exact h
    | _ => exact absurd h id
  | cons key path =>
    cases document with
    | obj members =>
      rw [Edit.removeChild] at hresult
      split at hresult
      · simp at hresult
      · obtain rfl := Except.ok.inj hresult
        have hne : token ≠ key := by
          rintro rfl
          exact not_spares_nil (hspares rfl)
        obtain ⟨hnodup, child, hchild, h⟩ := h
        exact ⟨nodup_keys_erase hnodup, child, by rw [find?_erase_of_ne hnodup hne, hchild], h⟩
    | _ => exact absurd h id

theorem stands_remove {tokens : List String} (h : Stands index value path document)
    (hspares : Spares .remove index path tokens)
    (hresult : Edit.remove tokens document = .ok result) : Stands index value path result := by
  induction tokens generalizing path document result with
  | nil => simp [Edit.remove] at hresult
  | cons token tokens ih =>
    cases tokens with
    | nil => exact stands_removeChild h hspares hresult
    | cons next rest =>
      rw [remove_cons_cons] at hresult
      refine stands_descend h hresult ?_ fun inner hpath child changed hchild hchanged => ?_
      · rintro rfl bound position hposition
        exact hspares.ne_index hposition
      · subst hpath
        exact ih hchild (hspares rfl) hchanged

theorem stands_addChild {token : String} {new : Json} (h : Stands index value path document)
    (hspares : Spares .add index path [token])
    (hresult : Edit.addChild token new document = .ok result) : Stands index value path result := by
  cases path with
  | nil =>
    cases document with
    | arr items =>
      have hlength := (List.getElem?_eq_some_iff.1 h).1
      rw [Edit.addChild] at hresult
      split at hresult
      · obtain rfl := Except.ok.inj hresult
        rw [Stands, List.getElem?_append_left hlength]
        exact h
      · obtain ⟨position, hposition, rfl⟩ := Except.map_eq_ok_iff.1 hresult
        have hbehind : index < position := by
          simpa using hspares _ position hposition
        rw [Stands, List.getElem?_insertIdx_of_lt hbehind]
        exact h
    | _ => exact absurd h id
  | cons key path =>
    cases document with
    | obj members =>
      obtain rfl := Except.ok.inj hresult
      have hne : token ≠ key := by
        rintro rfl
        exact not_spares_nil (hspares rfl)
      exact h.set_of_ne hne new
    | _ => exact absurd h id

theorem stands_addBelow {token : String} {rest : List String} {new : Json}
    (h : Stands index value path document) (hspares : Spares .add index path (token :: rest))
    (hresult : Edit.addBelow new token rest document = .ok result) :
    Stands index value path result := by
  induction rest generalizing token path document result with
  | nil => exact stands_addChild h hspares hresult
  | cons next rest ih =>
    cases path with
    | nil =>
      cases document with
      | arr items =>
        obtain ⟨position, hposition, hresult⟩ := Except.bind_eq_ok_iff.1 hresult
        obtain ⟨changed, -, hresult⟩ := Except.bind_eq_ok_iff.1 hresult
        obtain rfl := Except.ok.inj hresult
        exact h.set_element (hspares.ne_index hposition) changed
      | _ => exact absurd h id
    | cons key path =>
      cases document with
      | obj members =>
        obtain ⟨changed, hchanged, rfl⟩ := Except.map_eq_ok_iff.1 hresult
        by_cases hkey : token = key
        · subst hkey
          obtain ⟨hnodup, child, hchild, h⟩ := h
          rw [hchild, Option.getD_some] at hchanged
          exact .set_self hnodup (ih h (hspares rfl) hchanged)
        · exact h.set_of_ne hkey changed
      | _ => exact absurd h id

/-- Fields merged into the root spare what lies below other names. -/
theorem stands_addRoot {key : String} {fields : List (String × Json)}
    (h : Stands index value (key :: path) document) (hkey : key ∉ keys fields) :
    Stands index value (key :: path) (Edit.addRoot (.obj fields) document) := by
  cases document with
  | obj members =>
    obtain ⟨hnodup, child, hchild, h⟩ := h
    exact ⟨nodup_keys_merge hnodup fields, child, by rw [find?_merge_of_notMem hkey, hchild], h⟩
  | _ => exact absurd h id

/-- An edit that spares an element keeps it in its place. -/
theorem stands_apply {edit : Edit} {tokens : List String} (h : Stands index value path document)
    (hparse : Pointer.parse edit.pointer = some tokens)
    (hspares : Spares edit.op index path tokens) (hresult : edit.apply document = .ok result) :
    Stands index value path result := by
  obtain ⟨tokens', hparse', hcases⟩ := Edit.apply_cases hresult
  obtain rfl := Option.some.inj (hparse.symm.trans hparse')
  obtain ⟨hop, hresult⟩ | ⟨new, -, ⟨hop, hresult⟩ | ⟨hop, hresult⟩⟩ := hcases
  · rw [hop] at hspares
    exact stands_remove h hspares hresult
  · rw [hop] at hspares
    cases tokens with
    | nil => exact absurd hspares not_spares_nil
    | cons token rest => exact stands_addBelow h hspares hresult
  · rw [hop] at hspares
    exact stands_replace h hspares hresult

end Scim.Patch
