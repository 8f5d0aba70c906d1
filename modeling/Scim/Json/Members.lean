/-!
The members of an object as a list of names and values with distinct names. Setting a member that is
there keeps its position and a new one goes last; erasing one moves the last member into its
position.
-/
namespace Scim.Members

variable {α : Type}

def keys (members : List (String × α)) : List String := members.map Prod.fst

def find? (key : String) : List (String × α) → Option α
  | [] => none
  | (k, v) :: rest => if k = key then some v else find? key rest

def set (key : String) (value : α) : List (String × α) → List (String × α)
  | [] => [(key, value)]
  | (k, v) :: rest => if k = key then (key, value) :: rest else (k, v) :: set key value rest

def lastFirst (members : List (String × α)) : List (String × α) :=
  match members.getLast? with
  | none => []
  | some last => last :: members.dropLast

def erase (key : String) : List (String × α) → List (String × α)
  | [] => []
  | (k, v) :: rest => if k = key then lastFirst rest else (k, v) :: erase key rest

def merge (members fields : List (String × α)) : List (String × α) :=
  fields.foldl (fun acc field => set field.1 field.2 acc) members

theorem find?_cons (key k : String) (v : α) (rest : List (String × α)) :
    find? key ((k, v) :: rest) = if k = key then some v else find? key rest := rfl

theorem find?_set_self (key : String) (value : α) (members : List (String × α)) :
    find? key (set key value members) = some value := by
  induction members with
  | nil => simp [set, find?_cons]
  | cons m rest ih =>
    obtain ⟨k, v⟩ := m
    by_cases h : k = key
    · simp [set, h, find?_cons]
    · simp [set, h, find?_cons, ih]

/-- Setting a member leaves the others alone. -/
theorem find?_set_of_ne {key other : String} (h : key ≠ other) (value : α)
    (members : List (String × α)) :
    find? other (set key value members) = find? other members := by
  induction members with
  | nil => simp [set, find?, h]
  | cons m rest ih =>
    obtain ⟨k, v⟩ := m
    by_cases hk : k = key
    · subst hk
      simp [set, find?_cons, h]
    · simp [set, hk, find?_cons, ih]

end Scim.Members
