import Mathlib.Data.List.Forall2
import Scim.Json.Basic
import Scim.Proofs.Json.Members

/-!
Documents that differ in the order of members alone, and documents in which no two names of an
object differ in case alone. In such a document at most one member answers to a name, whatever its
case, and a reordered document has the same one.
-/
namespace Scim.Json

/-- The members of the objects at any depth stand in another order, and all else is the same. -/
inductive Reordered : Json → Json → Prop
  | null : Reordered .null .null
  | bool (value : Bool) : Reordered (.bool value) (.bool value)
  | num (spelling : String) : Reordered (.num spelling) (.num spelling)
  | str (text : String) : Reordered (.str text) (.str text)
  | arr {items others : List Json} (hitems : List.Forall₂ Reordered items others) :
      Reordered (.arr items) (.arr others)
  | obj {members moved others : List (String × Json)} (hmoved : members.Perm moved)
      (hkeys : Members.keys moved = Members.keys others)
      (hvalues : List.Forall₂ Reordered (moved.map Prod.snd) (others.map Prod.snd)) :
      Reordered (.obj members) (.obj others)

def CaseApart (key other : String) : Prop := Text.sameFolded key other = false

instance : DecidableRel CaseApart := fun _ _ => decEq _ _

inductive CaseDistinct : Json → Prop
  | null : CaseDistinct .null
  | bool (value : Bool) : CaseDistinct (.bool value)
  | num (spelling : String) : CaseDistinct (.num spelling)
  | str (text : String) : CaseDistinct (.str text)
  | arr {items : List Json} (hitems : ∀ item ∈ items, CaseDistinct item) : CaseDistinct (.arr items)
  | obj {members : List (String × Json)} (hkeys : (Members.keys members).Pairwise CaseApart)
      (hmembers : ∀ member ∈ members, CaseDistinct member.2) : CaseDistinct (.obj members)

/-- The second value is the first one reordered, in which a name finds one member at most. -/
def Counterpart (value other : Json) : Prop := value.CaseDistinct ∧ value.Reordered other

variable {value other : Json} {members others : List (String × Json)}

theorem CaseApart.symm {key other : String} (h : CaseApart key other) : CaseApart other key := by
  apply Bool.eq_false_iff.2
  intro hsame
  rw [CaseApart, Text.sameFolded_symm hsame] at h
  exact Bool.noConfusion h

theorem Counterpart.isNull_eq (h : Counterpart value other) : value.isNull = other.isNull := by
  cases h.2 <;> rfl

/-- The elements of an array have counterparts at their places. -/
theorem Counterpart.elements (h : Counterpart value other) :
    List.Forall₂ Counterpart value.elements other.elements := by
  obtain ⟨hdistinct, hreordered⟩ := h
  cases hreordered with
  | arr hitems =>
    cases hdistinct with
    | arr hdistinct => exact (List.forall₂_and_left _ _).2 ⟨hdistinct, hitems⟩
  | null => exact .cons ⟨hdistinct, .null⟩ .nil
  | bool value => exact .cons ⟨hdistinct, .bool value⟩ .nil
  | num spelling => exact .cons ⟨hdistinct, .num spelling⟩ .nil
  | str text => exact .cons ⟨hdistinct, .str text⟩ .nil
  | obj hmoved hkeys hvalues => exact .cons ⟨hdistinct, .obj hmoved hkeys hvalues⟩ .nil

mutual

theorem reordered_refl : ∀ value : Json, Reordered value value
  | null => .null
  | bool value => .bool value
  | num spelling => .num spelling
  | str text => .str text
  | arr items => .arr (forall₂_reordered_items items)
  | obj members => .obj (.refl members) rfl (forall₂_reordered_values members)

theorem forall₂_reordered_items : ∀ items : List Json, List.Forall₂ Reordered items items
  | [] => .nil
  | item :: items => .cons (reordered_refl item) (forall₂_reordered_items items)

theorem forall₂_reordered_values : ∀ members : List (String × Json),
    List.Forall₂ Reordered (members.map Prod.snd) (members.map Prod.snd)
  | [] => .nil
  | (_, value) :: members => .cons (reordered_refl value) (forall₂_reordered_values members)

end

/-- Reordering the members of an object reorders the value. -/
theorem Reordered.of_perm (h : members.Perm others) : Reordered (.obj members) (.obj others) :=
  .obj h rfl (forall₂_reordered_values others)

theorem Reordered.set (h : Reordered value other) (key : String)
    (members : List (String × Json)) : Reordered (.obj (Members.set key value members))
      (.obj (Members.set key other members)) := by
  refine .obj (.refl _) (Members.keys_set key value other members) ?_
  induction members with
  | nil => exact .cons h .nil
  | cons member members ih =>
    obtain ⟨k, v⟩ := member
    rw [Members.set, Members.set]
    split
    · exact .cons h (forall₂_reordered_values members)
    · exact .cons (reordered_refl v) ih

theorem Reordered.setItem (h : Reordered value other) (index : Nat) (items : List Json) :
    Reordered (.arr (items.set index value)) (.arr (items.set index other)) := by
  refine .arr ?_
  induction items generalizing index with
  | nil => exact .nil
  | cons item items ih =>
    cases index with
    | zero => exact .cons h (forall₂_reordered_items items)
    | succ index => exact .cons (reordered_refl item) (ih index)

/-- Members with the same names and related values. -/
theorem forall₂_of_keys_eq {R : Json → Json → Prop} {moved others : List (String × Json)}
    (hkeys : Members.keys moved = Members.keys others)
    (hvalues : List.Forall₂ R (moved.map Prod.snd) (others.map Prod.snd)) :
    List.Forall₂ (fun member other => member.1 = other.1 ∧ R member.2 other.2) moved others := by
  induction moved generalizing others with
  | nil =>
    cases others with
    | nil => exact .nil
    | cons other others => simp [Members.keys] at hkeys
  | cons member moved ih =>
    cases others with
    | nil => simp [Members.keys] at hkeys
    | cons other others =>
      obtain ⟨hkey, hkeys⟩ := List.cons.inj hkeys
      cases hvalues with
      | cons hvalue hvalues => exact .cons ⟨hkey, hvalue⟩ (ih hkeys hvalues)

theorem Counterpart.pairwise_keys (h : Counterpart (.obj members) (.obj others)) :
    (Members.keys members).Pairwise CaseApart ∧ (Members.keys others).Pairwise CaseApart := by
  obtain ⟨hdistinct, hreordered⟩ := h
  cases hdistinct with
  | obj hdistinct hmembers =>
    cases hreordered with
    | obj hmoved hkeys hvalues =>
      have hperm : (Members.keys members).Perm (Members.keys others) := by
        rw [← hkeys]
        exact hmoved.map Prod.fst
      exact ⟨hdistinct, hperm.pairwise hdistinct fun happart => happart.symm⟩

theorem exists_of_mem_forall₂ {α β : Type} {R : α → β → Prop} {left : List α} {right : List β}
    (h : List.Forall₂ R left right) {a : α} (ha : a ∈ left) : ∃ b ∈ right, R a b := by
  induction h with
  | nil => simp at ha
  | cons hab _ ih =>
    rcases List.mem_cons.1 ha with rfl | ha
    · exact ⟨_, List.mem_cons_self, hab⟩
    · obtain ⟨b, hb, hab⟩ := ih ha
      exact ⟨b, List.mem_cons_of_mem _ hb, hab⟩

/-- Every member has a counterpart of the same name. -/
theorem Counterpart.exists_of_mem (h : Counterpart (.obj members) (.obj others)) {key : String}
    (hmember : (key, value) ∈ members) :
    ∃ other, (key, other) ∈ others ∧ Counterpart value other := by
  obtain ⟨hdistinct, hreordered⟩ := h
  cases hdistinct with
  | obj hdistinct hmembers =>
    cases hreordered with
    | obj hmoved hkeys hvalues =>
      obtain ⟨⟨_, other⟩, hother, rfl, hvalue⟩ :=
        exists_of_mem_forall₂ (forall₂_of_keys_eq hkeys hvalues) (hmoved.subset hmember)
      exact ⟨other, hother, hmembers _ hmember, hvalue⟩

/-- Every member of the reordered object is the counterpart of one of the same name. -/
theorem Counterpart.exists_of_mem_other (h : Counterpart (.obj members) (.obj others))
    {key : String} (hother : (key, other) ∈ others) :
    ∃ value, (key, value) ∈ members ∧ Counterpart value other := by
  obtain ⟨hdistinct, hreordered⟩ := h
  cases hdistinct with
  | obj hdistinct hmembers =>
    cases hreordered with
    | obj hmoved hkeys hvalues =>
      have hflip : List.Forall₂ (flip fun member other : String × Json =>
          member.1 = other.1 ∧ member.2.Reordered other.2) others _ :=
        List.Forall₂.flip (forall₂_of_keys_eq hkeys hvalues)
      obtain ⟨⟨_, value⟩, hmember, rfl, hvalue⟩ := exists_of_mem_forall₂ hflip hother
      have hmember := hmoved.mem_iff.2 hmember
      exact ⟨value, hmember, hmembers _ hmember, hvalue⟩

end Scim.Json
