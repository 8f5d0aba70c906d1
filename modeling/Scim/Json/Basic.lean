import Scim.Json.Members

/-!
JSON documents. A number is kept as it is spelled and an object keeps the order of its members.
Main statement: `identical` decides equality; `same` ignores the order of members.
-/
namespace Scim

inductive Json where
  | null
  | bool (value : Bool)
  | num (spelling : String)
  | str (text : String)
  | arr (items : List Json)
  | obj (members : List (String × Json))
  deriving Inhabited, Repr

namespace Json

def isNull : Json → Bool
  | null => true
  | _ => false

def members? : Json → Option (List (String × Json))
  | obj members => some members
  | _ => none

/-- The elements of an array, and any other value as its own only element. -/
def elements : Json → List Json
  | arr items => items
  | value => [value]

mutual

def identical : Json → Json → Bool
  | null, null => true
  | bool a, bool b => a == b
  | num a, num b => a == b
  | str a, str b => a == b
  | arr a, arr b => identicalItems a b
  | obj a, obj b => identicalMembers a b
  | _, _ => false

def identicalItems : List Json → List Json → Bool
  | [], [] => true
  | a :: as, b :: bs => identical a b && identicalItems as bs
  | _, _ => false

def identicalMembers : List (String × Json) → List (String × Json) → Bool
  | [], [] => true
  | (j, a) :: as, (k, b) :: bs => j == k && identical a b && identicalMembers as bs
  | _, _ => false

end

mutual

/-- Equality up to the order of members at any depth. Numbers are compared by their spelling. -/
def same : Json → Json → Bool
  | null, null => true
  | bool a, bool b => a == b
  | num a, num b => a == b
  | str a, str b => a == b
  | arr a, arr b => sameItems a b
  | obj a, obj b => a.length == b.length && sameMembers a b
  | _, _ => false

def sameItems : List Json → List Json → Bool
  | [], [] => true
  | a :: as, b :: bs => same a b && sameItems as bs
  | _, _ => false

/-- Every member has an equal one of the same name in the other list. -/
def sameMembers : List (String × Json) → List (String × Json) → Bool
  | [], _ => true
  | (k, a) :: as, bs =>
    (match Members.find? k bs with
      | some b => same a b
      | none => false) && sameMembers as bs

end

mutual

theorem eq_of_identical : ∀ {a b : Json}, identical a b = true → a = b
  | null, b, h => by cases b <;> simp_all [identical]
  | bool _, b, h => by cases b <;> simp_all [identical]
  | num _, b, h => by cases b <;> simp_all [identical]
  | str _, b, h => by cases b <;> simp_all [identical]
  | arr _, b, h => by
    cases b <;> simp only [identical, Bool.false_eq_true] at h
    rw [eq_of_identicalItems h]
  | obj _, b, h => by
    cases b <;> simp only [identical, Bool.false_eq_true] at h
    rw [eq_of_identicalMembers h]

theorem eq_of_identicalItems : ∀ {as bs : List Json}, identicalItems as bs = true → as = bs
  | [], bs, h => by cases bs <;> simp_all [identicalItems]
  | a :: as, bs, h => by
    cases bs with
    | nil => simp [identicalItems] at h
    | cons b bs =>
      simp only [identicalItems, Bool.and_eq_true] at h
      rw [eq_of_identical h.1, eq_of_identicalItems h.2]

theorem eq_of_identicalMembers :
    ∀ {as bs : List (String × Json)}, identicalMembers as bs = true → as = bs
  | [], bs, h => by cases bs <;> simp_all [identicalMembers]
  | (j, a) :: as, bs, h => by
    cases bs with
    | nil => simp [identicalMembers] at h
    | cons b bs =>
      obtain ⟨k, b⟩ := b
      simp only [identicalMembers, Bool.and_eq_true, beq_iff_eq] at h
      rw [h.1.1, eq_of_identical h.1.2, eq_of_identicalMembers h.2]

end

mutual

theorem identical_refl : ∀ a : Json, identical a a = true
  | null => rfl
  | bool _ => by simp [identical]
  | num _ => by simp [identical]
  | str _ => by simp [identical]
  | arr items => by simp only [identical, identicalItems_refl items]
  | obj members => by simp only [identical, identicalMembers_refl members]

theorem identicalItems_refl : ∀ as : List Json, identicalItems as as = true
  | [] => rfl
  | a :: as => by
    simp only [identicalItems, identical_refl a, identicalItems_refl as, Bool.and_self]

theorem identicalMembers_refl : ∀ as : List (String × Json), identicalMembers as as = true
  | [] => rfl
  | (k, a) :: as => by
    simp only [identicalMembers, identical_refl a, identicalMembers_refl as, Bool.and_self,
      beq_self_eq_true]

end

/-- The test of identity decides equality. -/
theorem identical_iff {a b : Json} : identical a b = true ↔ a = b :=
  ⟨eq_of_identical, fun h => h ▸ identical_refl a⟩

instance : DecidableEq Json := fun a b =>
  if h : identical a b = true then isTrue (identical_iff.1 h)
  else isFalse fun e => h (identical_iff.2 e)

end Json

end Scim
