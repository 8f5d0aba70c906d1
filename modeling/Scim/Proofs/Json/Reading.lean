import Scim.Proofs.Json.Stored

/-!
Values that are read, from a text or from a value. No object among them has a name twice, and none has
the reserved name in front.
-/
namespace Scim.Json

/-- No object at any depth has a name twice or the reserved name in front. -/
def Proper (value : Json) : Prop := value.DistinctKeys ∧ value.Unmarked

namespace Source

variable {limit : Option Nat} {value : Json} {members : List (Option String × Source)}
  {found fields : List (String × Json)}

theorem exists_of_value?_arr {items : List Source} (h : value? limit (arr items) = some value) :
    ∃ within values, values? within items = some values ∧ value = .arr values := by
  match limit with
  | none =>
    obtain ⟨values, hvalues, rfl⟩ := Option.map_eq_some_iff.1 h
    exact ⟨none, values, hvalues, rfl⟩
  | some 0 => simp [value?] at h
  | some (limit + 1) =>
    obtain ⟨values, hvalues, rfl⟩ := Option.map_eq_some_iff.1 h
    exact ⟨some limit, values, hvalues, rfl⟩

/-- An object with the reserved name in front is read as a number or not at all. -/
theorem eq_num_of_markedNumber? (h : markedNumber? members = some (some value)) :
    ∃ spelling, value = .num spelling := by
  unfold markedNumber? at h
  split at h
  · split at h
    · split at h
      · obtain ⟨spelling, -, rfl⟩ := Option.map_eq_some_iff.1 (Option.some.inj h)
        exact ⟨_, rfl⟩
      · simp at h
    · simp at h
  · simp at h

/-- An object is read as one, or else as the number that it stands for. -/
theorem exists_of_value?_obj (h : value? limit (obj members) = some value) :
    (∃ spelling, value = .num spelling) ∨ ∃ within fields, markedNumber? members = none ∧
      memberValues? within [] members = some fields ∧ value = .obj fields := by
  cases hmarked : markedNumber? members with
  | some number =>
    have hnumber : number = some value := by
      match limit with
      | none => simpa [value?, hmarked] using h
      | some 0 => simp [value?] at h
      | some (limit + 1) => simpa [value?, hmarked] using h
    rw [hnumber] at hmarked
    exact .inl (eq_num_of_markedNumber? hmarked)
  | none =>
    match limit with
    | none =>
      simp only [value?, hmarked, Option.map_eq_some_iff] at h
      obtain ⟨fields, hfields, rfl⟩ := h
      exact .inr ⟨none, fields, rfl, hfields, rfl⟩
    | some 0 => simp [value?] at h
    | some (limit + 1) =>
      simp only [value?, hmarked, Option.map_eq_some_iff] at h
      obtain ⟨fields, hfields, rfl⟩ := h
      exact .inr ⟨some limit, fields, rfl, hfields, rfl⟩

/-- Members are set behind the first one, which keeps its place. -/
theorem head?_keys_of_memberValues? {name : String} {first : Json}
    (h : memberValues? limit ((name, first) :: found) members = some fields) :
    (Members.keys fields).head? = some name := by
  induction members generalizing first found with
  | nil =>
    rw [memberValues?] at h
    rw [← Option.some.inj h]
    rfl
  | cons member members ih =>
    obtain ⟨key, member⟩ := member
    simp only [memberValues?, Option.bind_eq_bind, Option.bind_eq_some_iff] at h
    obtain ⟨key, -, value, -, h⟩ := h
    rw [Members.set] at h
    split at h
    · rename_i hname
      rw [← hname] at h
      exact ih h
    · exact ih h

theorem head?_keys_ne_of_markedNumber? (hmarked : markedNumber? members = none)
    (h : memberValues? limit [] members = some fields) :
    (Members.keys fields).head? ≠ some numberMark := by
  cases members with
  | nil =>
    rw [memberValues?] at h
    rw [← Option.some.inj h]
    simp [Members.keys]
  | cons member members =>
    obtain ⟨key, member⟩ := member
    simp only [memberValues?, Option.bind_eq_bind, Option.bind_eq_some_iff] at h
    obtain ⟨key, rfl, value, -, h⟩ := h
    rw [head?_keys_of_memberValues? h]
    intro hkey
    simp only [markedNumber?, Option.some.inj hkey, if_true] at hmarked
    split at hmarked
    · simp at hmarked
    · simp at hmarked

mutual

/-- A value that is read is proper, from whatever depth. -/
theorem proper_of_value? : ∀ {limit : Option Nat} {source : Source} {value : Json},
    value? limit source = some value → value.Proper
  | limit, .null, value, h => by
    obtain rfl : Json.null = value := by cases limit <;> simpa [value?] using h
    exact ⟨.null, .null⟩
  | limit, .bool b, value, h => by
    obtain rfl : Json.bool b = value := by cases limit <;> simpa [value?] using h
    exact ⟨.bool b, .bool b⟩
  | limit, .num spelling, value, h => by
    obtain rfl : Json.num spelling = value := by cases limit <;> simpa [value?] using h
    exact ⟨.num spelling, .num spelling⟩
  | limit, .str text, value, h => by
    obtain ⟨text, -, rfl⟩ : ∃ inner, text = some inner ∧ Json.str inner = value := by
      cases limit <;> simpa [value?] using h
    exact ⟨.str text, .str text⟩
  | limit, .arr items, value, h => by
    obtain ⟨within, values, hvalues, rfl⟩ := exists_of_value?_arr h
    have hall := proper_of_values? hvalues
    exact ⟨.arr fun item hitem => (hall item hitem).1, .arr fun item hitem => (hall item hitem).2⟩
  | limit, .obj members, value, h => by
    obtain ⟨spelling, rfl⟩ | ⟨within, fields, hmarked, hfields, rfl⟩ := exists_of_value?_obj h
    · exact ⟨.num spelling, .num spelling⟩
    · have hnone : (Members.keys ([] : List (String × Json))).Nodup := List.nodup_nil
      obtain ⟨hkeys, hall⟩ := proper_of_memberValues? hnone (by simp) hfields
      exact ⟨.obj hkeys fun field hfield => (hall field hfield).1,
        .obj (head?_keys_ne_of_markedNumber? hmarked hfields) fun field hfield => (hall field hfield).2⟩
  | limit, .broken, value, h => by cases limit <;> simp [value?] at h

theorem proper_of_values? : ∀ {limit : Option Nat} {items : List Source} {values : List Json},
    values? limit items = some values → ∀ value ∈ values, value.Proper
  | limit, [], values, h => by
    rw [values?] at h
    simp [← Option.some.inj h]
  | limit, item :: items, values, h => by
    simp only [values?, Option.bind_eq_bind, Option.bind_eq_some_iff, Option.pure_def,
      Option.some.injEq] at h
    obtain ⟨value, hvalue, values, hvalues, rfl⟩ := h
    exact List.forall_mem_cons.2 ⟨proper_of_value? hvalue, proper_of_values? hvalues⟩

theorem proper_of_memberValues? : ∀ {limit : Option Nat} {members : List (Option String × Source)}
    {found fields : List (String × Json)}, (Members.keys found).Nodup →
    (∀ field ∈ found, field.2.Proper) →
    memberValues? limit found members = some fields →
    (Members.keys fields).Nodup ∧ ∀ field ∈ fields, field.2.Proper
  | limit, [], found, fields, hkeys, hfound, h => by
    rw [memberValues?] at h
    rw [← Option.some.inj h]
    exact ⟨hkeys, hfound⟩
  | limit, (key, member) :: members, found, fields, hkeys, hfound, h => by
    simp only [memberValues?, Option.bind_eq_bind, Option.bind_eq_some_iff] at h
    obtain ⟨key, rfl, value, hvalue, h⟩ := h
    refine proper_of_memberValues? (Members.nodup_keys_set hkeys value) (fun field hfield => ?_) h
    rcases Members.mem_of_mem_set hfield with rfl | hfield
    · exact proper_of_value? hvalue
    · exact hfound field hfield

end

end Source

end Scim.Json
