import Scim.Json.Members
import Scim.Text.Basic

/-!
The names of the members of objects. Setting, merging and erasing members keep the names distinct and
leave the members of all other names alone, although an erased member changes the order of the
others.
-/
namespace Scim.Members

variable {α : Type} {key other : String} {members left right : List (String × α)}

theorem find?_append (key : String) (left right : List (String × α)) :
    find? key (left ++ right) = (find? key left).or (find? key right) := by
  induction left with
  | nil => rfl
  | cons member rest ih =>
    obtain ⟨k, v⟩ := member
    rw [List.cons_append, find?_cons, find?_cons, ih]
    split <;> rfl

theorem find?_eq_none_iff : find? key members = none ↔ key ∉ keys members := by
  induction members with
  | nil => simp [find?, keys]
  | cons member rest ih =>
    obtain ⟨k, v⟩ := member
    rw [find?_cons]
    by_cases hk : k = key
    · simp [hk, keys]
    · rw [if_neg hk, ih]
      simp [keys, Ne.symm hk]

theorem mem_of_find? {value : α} (h : find? key members = some value) : (key, value) ∈ members := by
  induction members with
  | nil => simp [find?] at h
  | cons member rest ih =>
    obtain ⟨k, v⟩ := member
    rw [find?_cons] at h
    split at h
    · rename_i hk
      obtain rfl := Option.some.inj h
      rw [hk]
      exact List.mem_cons_self
    · exact List.mem_cons_of_mem _ (ih h)

theorem mem_keys_set {value : α} : other ∈ keys (set key value members) ↔
    other = key ∨ other ∈ keys members := by
  induction members with
  | nil => simp [set, keys]
  | cons member rest ih =>
    obtain ⟨k, v⟩ := member
    by_cases hk : k = key
    · simp [set, hk, keys]
    · simp only [set, hk, if_false, keys, List.map_cons, List.mem_cons] at ih ⊢
      rw [ih]
      exact or_left_comm

theorem mem_of_mem_set {member : String × α} {value : α} (h : member ∈ set key value members) :
    member = (key, value) ∨ member ∈ members := by
  induction members with
  | nil => exact .inl (List.mem_singleton.1 h)
  | cons first rest ih =>
    obtain ⟨k, v⟩ := first
    rw [set] at h
    split at h
    · exact (List.mem_cons.1 h).imp_right (List.mem_cons_of_mem _)
    · rcases List.mem_cons.1 h with rfl | h
      · exact .inr List.mem_cons_self
      · exact (ih h).imp_right (List.mem_cons_of_mem _)

theorem nodup_keys_set (h : (keys members).Nodup) (value : α) :
    (keys (set key value members)).Nodup := by
  induction members with
  | nil => simp [set, keys]
  | cons member rest ih =>
    obtain ⟨k, v⟩ := member
    obtain ⟨hk, hrest⟩ := List.nodup_cons.1 h
    by_cases hkey : k = key
    · subst hkey
      simpa [set, keys] using h
    · rw [set, if_neg hkey]
      refine List.nodup_cons.2 ⟨fun hmem => ?_, ih hrest⟩
      rcases mem_keys_set.1 hmem with hmem | hmem
      · exact hkey hmem
      · exact hk hmem

theorem nodup_keys_merge (h : (keys members).Nodup) (fields : List (String × α)) :
    (keys (merge members fields)).Nodup := by
  induction fields generalizing members with
  | nil => exact h
  | cons field fields ih => exact ih (nodup_keys_set h field.2)

/-- Merging leaves members of other names alone. -/
theorem find?_merge_of_notMem {fields : List (String × α)} (h : key ∉ keys fields)
    (members : List (String × α)) : find? key (merge members fields) = find? key members := by
  induction fields generalizing members with
  | nil => rfl
  | cons field fields ih =>
    obtain ⟨hfield, hfields⟩ := not_or.1 (mt List.mem_cons.2 h)
    exact (ih hfields _).trans (find?_set_of_ne (Ne.symm hfield) field.2 members)

theorem set_set (key : String) (first value : α) (members : List (String × α)) :
    set key value (set key first members) = set key value members := by
  induction members with
  | nil => simp [set]
  | cons member rest ih =>
    obtain ⟨k, v⟩ := member
    by_cases hk : k = key
    · simp [set, hk]
    · simp [set, hk, ih]

theorem set_of_find? {value : α} (h : find? key members = some value) :
    set key value members = members := by
  induction members with
  | nil => simp [find?] at h
  | cons member rest ih =>
    obtain ⟨k, v⟩ := member
    rw [find?_cons] at h
    by_cases hk : k = key
    · rw [if_pos hk] at h
      rw [set, if_pos hk, hk, Option.some.inj h]
    · rw [if_neg hk] at h
      rw [set, if_neg hk, ih h]

/-- A new member goes last. -/
theorem set_of_notMem (h : key ∉ keys members) (value : α) :
    set key value members = members ++ [(key, value)] := by
  induction members with
  | nil => rfl
  | cons member rest ih =>
    obtain ⟨k, v⟩ := member
    rw [keys, List.map_cons, List.mem_cons] at h
    rw [set, if_neg fun hk => h (.inl hk.symm), ih fun hmem => h (.inr hmem), List.cons_append]

theorem keys_set (key : String) (first second : α) (members : List (String × α)) :
    keys (set key first members) = keys (set key second members) := by
  induction members with
  | nil => rfl
  | cons member rest ih =>
    obtain ⟨k, v⟩ := member
    rw [set, set]
    split
    · rfl
    · exact congrArg (k :: ·) ih

theorem lastFirst_concat (init : List (String × α)) (last : String × α) :
    lastFirst (init ++ [last]) = last :: init := by
  simp [lastFirst]

/-- Moving the last member to the front only reorders. -/
theorem lastFirst_perm (members : List (String × α)) : (lastFirst members).Perm members := by
  rcases List.eq_nil_or_concat members with rfl | ⟨init, last, rfl⟩
  · exact .refl _
  · rw [List.concat_eq_append, lastFirst_concat]
    exact (List.perm_append_singleton _ _).symm

theorem find?_lastFirst (h : (keys members).Nodup) :
    find? key (lastFirst members) = find? key members := by
  rcases List.eq_nil_or_concat members with rfl | ⟨init, ⟨k, v⟩, rfl⟩
  · rfl
  · rw [List.concat_eq_append] at h ⊢
    rw [lastFirst_concat, find?_cons, find?_append, find?_cons]
    by_cases hk : k = key
    · subst hk
      have hinit : find? k init = none := by
        rw [find?_eq_none_iff]
        intro hmem
        rw [keys, List.map_append] at h
        exact (List.nodup_append.1 h).2.2 k hmem k List.mem_cons_self rfl
      rw [hinit, if_pos rfl, if_pos rfl]
      rfl
    · rw [if_neg hk, if_neg hk, find?, Option.or_none]

theorem erase_subset : erase key members ⊆ members := by
  induction members with
  | nil => exact List.Subset.refl _
  | cons member rest ih =>
    obtain ⟨k, v⟩ := member
    rw [erase]
    split
    · exact fun other hother => List.mem_cons_of_mem (k, v) ((lastFirst_perm rest).subset hother)
    · exact List.cons_subset_cons (k, v) ih

/-- A new member goes last, so erasing it moves no other one. -/
theorem erase_set_of_find? (h : find? key members = none) (value : α) :
    erase key (set key value members) = members := by
  induction members with
  | nil => simp [set, erase, lastFirst]
  | cons member rest ih =>
    obtain ⟨k, v⟩ := member
    rw [find?_cons] at h
    split at h
    · simp at h
    · rename_i hk
      rw [set, if_neg hk, erase, if_neg hk, ih h]

theorem nodup_keys_erase (h : (keys members).Nodup) : (keys (erase key members)).Nodup := by
  induction members with
  | nil => exact h
  | cons member rest ih =>
    obtain ⟨k, v⟩ := member
    obtain ⟨hk, hrest⟩ := List.nodup_cons.1 h
    rw [erase]
    split
    · exact ((lastFirst_perm rest).map Prod.fst).symm.nodup hrest
    · exact List.nodup_cons.2 ⟨fun hmem => hk (List.map_subset Prod.fst erase_subset hmem), ih hrest⟩

theorem find?_erase_of_ne (h : (keys members).Nodup) (hne : key ≠ other) :
    find? other (erase key members) = find? other members := by
  induction members with
  | nil => rfl
  | cons member rest ih =>
    obtain ⟨k, v⟩ := member
    obtain ⟨-, hrest⟩ := List.nodup_cons.1 h
    rw [erase, find?_cons]
    split
    · rename_i hk
      rw [if_neg (hk ▸ hne), find?_lastFirst hrest]
    · rw [find?_cons, ih hrest]

def assign (key : String) : Option α → List (String × α) → List (String × α)
  | some value, members => set key value members
  | none, members => erase key members

theorem nodup_keys_assign (h : (keys members).Nodup) (value : Option α) :
    (keys (assign key value members)).Nodup := by
  cases value with
  | some value => exact nodup_keys_set h value
  | none => exact nodup_keys_erase h

/-- An erased member is gone, as no other one has its name. -/
theorem find?_erase_self (h : (keys members).Nodup) : find? key (erase key members) = none := by
  induction members with
  | nil => rfl
  | cons member rest ih =>
    obtain ⟨k, v⟩ := member
    obtain ⟨hk, hrest⟩ := List.nodup_cons.1 h
    rw [erase]
    split
    · rename_i hkey
      rw [find?_lastFirst hrest, find?_eq_none_iff, ← hkey]
      exact hk
    · rename_i hkey
      rw [find?_cons, if_neg hkey, ih hrest]

theorem find?_assign_self (h : (keys members).Nodup) (value : Option α) :
    find? key (assign key value members) = value := by
  cases value with
  | some value => exact find?_set_self key value members
  | none => exact find?_erase_self h

/-- Assigning a member leaves the others alone. -/
theorem find?_assign_of_ne (h : (keys members).Nodup) (hne : key ≠ other) (value : Option α) :
    find? other (assign key value members) = find? other members := by
  cases value with
  | some value => exact find?_set_of_ne hne value members
  | none => exact find?_erase_of_ne h hne

/-- Where no name is repeated, the members are those that are found. -/
theorem mem_iff_find? (h : (keys members).Nodup) {value : α} :
    (key, value) ∈ members ↔ find? key members = some value := by
  refine ⟨fun hmem => ?_, mem_of_find?⟩
  induction members with
  | nil => simp at hmem
  | cons member rest ih =>
    obtain ⟨k, v⟩ := member
    obtain ⟨hk, hrest⟩ := List.nodup_cons.1 h
    rw [find?_cons]
    rcases List.mem_cons.1 hmem with heq | hmem
    · obtain ⟨rfl, rfl⟩ := Prod.mk.inj heq
      exact if_pos rfl
    · have hne : k ≠ key := by
        rintro rfl
        exact hk (List.mem_map.2 ⟨_, hmem, rfl⟩)
      rw [if_neg hne, ih hrest hmem]

/-- Names that differ in more than case are distinct. -/
theorem nodup_keys_of_folded
    (h : members.Pairwise fun member other => Text.sameFolded member.1 other.1 = false) :
    (keys members).Nodup := by
  refine List.pairwise_map.2 (h.imp fun {member other} hfolded hkey => ?_)
  rw [hkey, Text.sameFolded_refl] at hfolded
  exact Bool.noConfusion hfolded

/-- A member that is found is the first one of its name, and setting it changes this one. -/
theorem exists_of_find? {child : α} (value : α) (h : find? key members = some child) :
    ∃ front back, members = front ++ (key, child) :: back ∧ key ∉ keys front ∧
      set key value members = front ++ (key, value) :: back := by
  induction members with
  | nil => simp [find?] at h
  | cons member members ih =>
    obtain ⟨k, v⟩ := member
    rw [find?_cons] at h
    rw [set]
    by_cases hk : k = key
    · rw [if_pos hk] at h
      rw [if_pos hk, hk, Option.some.inj h]
      exact ⟨[], members, rfl, List.not_mem_nil, rfl⟩
    · rw [if_neg hk] at h
      obtain ⟨front, back, hmembers, hfront, hset⟩ := ih h
      rw [if_neg hk, hset, hmembers]
      refine ⟨(k, v) :: front, back, rfl, ?_, rfl⟩
      rw [keys, List.map_cons, List.mem_cons]
      exact not_or.2 ⟨Ne.symm hk, hfront⟩

theorem nodup_of_keys (h : (keys members).Nodup) : members.Nodup :=
  List.Pairwise.of_map Prod.fst (fun _ _ hne heq => hne (congrArg Prod.fst heq)) h

/-- Objects with the same value for every name have the same members, perhaps in another order. -/
theorem perm_of_find?_eq (hleft : (keys left).Nodup) (hright : (keys right).Nodup)
    (h : ∀ key, find? key left = find? key right) : left.Perm right := by
  refine (List.perm_ext_iff_of_nodup (nodup_of_keys hleft) (nodup_of_keys hright)).2
    fun member => ?_
  obtain ⟨key, value⟩ := member
  rw [mem_iff_find? hleft, mem_iff_find? hright, h]

end Scim.Members
