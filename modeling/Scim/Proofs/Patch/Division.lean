import Scim.Proofs.Patch.Persistence

/-!
Edits of an object divide into edits of its members. An edit below a member looks at this member only
and changes this member only, so a list of edits can be applied exactly if for every member the edits
below it can be, and only the order of edits below one member matters.
-/
namespace Scim

/-- Both outcomes are faults, or both are objects with the same members, perhaps in another order. -/
inductive SameOutcome : Except PatchError Json → Except PatchError Json → Prop
  | fault (error other : PatchError) : SameOutcome (.error error) (.error other)
  | object {left right : List (String × Json)} (hperm : left.Perm right) :
      SameOutcome (.ok (.obj left)) (.ok (.obj right))

namespace Edit

def tokens (edit : Edit) : List String := (Pointer.parse edit.pointer).getD []

def key? (edit : Edit) : Option String := edit.tokens.head?

def effect (edit : Edit) (member : Option Json) : Option (Option Json) :=
  match edit.op, edit.value, edit.tokens.tail, member with
  | .remove, _, [], some _ => some none
  | .remove, _, next :: rest, some child => (remove (next :: rest) child).toOption.map some
  | .replace, some value, rest, some child => (replace rest value child).toOption.map some
  | .add, some value, [], _ => some (some value)
  | .add, some value, next :: rest, child =>
    (addBelow value next rest (child.getD (.obj []))).toOption.map some
  | _, _, _, _ => none

def effects (edits : List Edit) (member : Option Json) : Option (Option Json) :=
  edits.foldlM (fun member edit => edit.effect member) member

variable {edit : Edit} {edits : List Edit} {members : List (String × Json)} {key : String}
  {result : Json}

theorem parse_of_key? (h : edit.key? = some key) :
    ∃ rest, Pointer.parse edit.pointer = some (key :: rest) ∧ edit.tokens.tail = rest := by
  unfold key? tokens at h
  cases hparse : Pointer.parse edit.pointer with
  | none => simp [hparse] at h
  | some tokens =>
    rw [hparse, Option.getD_some] at h
    obtain ⟨rest, rfl⟩ := List.head?_eq_some_iff.1 h
    exact ⟨rest, rfl, by rw [Edit.tokens, hparse]; rfl⟩

/-- A member is changed exactly if its value is. -/
theorem map_set_eq_ok_iff {outcome : Except EditFault Json} :
    outcome.map (fun child => .obj (Members.set key child members)) = .ok result ↔
      ∃ member, outcome.toOption.map some = some member ∧
        result = .obj (Members.assign key member members) := by
  cases outcome with
  | ok child => simp [Except.map, Except.toOption, Members.assign, eq_comm]
  | error fault => simp [Except.map, Except.toOption]

/-- An edit at or below a member changes this member alone. -/
theorem apply_obj_iff (h : edit.key? = some key) :
    edit.apply (.obj members) = .ok result ↔
      ∃ member, edit.effect (Members.find? key members) = some member ∧
        result = .obj (Members.assign key member members) := by
  obtain ⟨rest, hparse, htail⟩ := parse_of_key? h
  cases hop : edit.op with
  | add =>
    cases hvalue : edit.value with
    | none => simp [apply, effect, hparse, htail, hop, hvalue]
    | some value =>
      simp only [apply, effect, hparse, htail, hop, hvalue, located_eq_ok_iff, add]
      cases rest with
      | nil => simp [addBelow, addChild, Members.assign, eq_comm]
      | cons next rest => exact map_set_eq_ok_iff
  | remove =>
    simp only [apply, effect, hparse, htail, hop, located_eq_ok_iff]
    cases rest with
    | nil =>
      cases hchild : Members.find? key members with
      | none => simp [remove, update, removeChild, hchild]
      | some child => simp [remove, update, removeChild, hchild, Members.assign, eq_comm]
    | cons next rest =>
      rw [Patch.remove_cons_cons, descend]
      cases Members.find? key members with
      | none => simp
      | some child => exact map_set_eq_ok_iff
  | replace =>
    have hdescend : ∀ value, replace (key :: rest) value (.obj members) =
        descend key (replace rest value) (.obj members) := fun _ => rfl
    cases hvalue : edit.value with
    | none =>
      simp only [apply, effect, hparse, htail, hop, hvalue, hdescend]
      cases edit.located (descend key (replace rest .null) (.obj members)) <;>
        simp [bind, Except.bind, throw, throwThe, MonadExceptOf.throw]
    | some value =>
      simp only [apply, effect, hparse, htail, hop, hvalue, located_eq_ok_iff, hdescend, descend]
      cases Members.find? key members with
      | none => simp
      | some child => exact map_set_eq_ok_iff

theorem effects_cons_eq_some {member after : Option Json} :
    effects (edit :: edits) member = some after ↔
      ∃ next, edit.effect member = some next ∧ effects edits next = some after :=
  Option.bind_eq_some_iff

def below (key : String) (edits : List Edit) : List Edit :=
  edits.filter fun edit => edit.key? == some key

theorem below_append (key : String) (edits others : List Edit) :
    below key (edits ++ others) = below key edits ++ below key others :=
  List.filter_append _ _

theorem below_cons_self (h : edit.key? = some key) (edits : List Edit) :
    below key (edit :: edits) = edit :: below key edits :=
  List.filter_cons_of_pos (by simp [h])

theorem below_cons_of_ne {other : String} (h : edit.key? = some key) (hne : key ≠ other)
    (edits : List Edit) : below other (edit :: edits) = below other edits :=
  List.filter_cons_of_neg (by simp [h, hne])

theorem effects_below_cons (hkey : edit.key? = some key) (h : (Members.keys members).Nodup)
    (state : String → Option Json) :
    (∀ other, effects (below other (edit :: edits)) (Members.find? other members) =
        some (state other)) ↔
      ∃ member, edit.effect (Members.find? key members) = some member ∧
        ∀ other, effects (below other edits)
          (Members.find? other (Members.assign key member members)) = some (state other) := by
  constructor
  · intro hstate
    have hown := hstate key
    rw [below_cons_self hkey] at hown
    obtain ⟨member, heffect, hown⟩ := effects_cons_eq_some.1 hown
    refine ⟨member, heffect, fun other => ?_⟩
    by_cases hother : key = other
    · subst hother
      rw [Members.find?_assign_self h, hown]
    · rw [Members.find?_assign_of_ne h hother, ← hstate other, below_cons_of_ne hkey hother]
  · rintro ⟨member, heffect, hstate⟩ other
    by_cases hother : key = other
    · subst hother
      rw [below_cons_self hkey, effects_cons_eq_some]
      refine ⟨member, heffect, ?_⟩
      rw [← hstate key, Members.find?_assign_self h]
    · rw [below_cons_of_ne hkey hother, ← hstate other, Members.find?_assign_of_ne h hother]

/-- A list of edits can be applied to an object and leaves these values exactly if for every member
the edits below it can be applied to it and leave this value. -/
theorem applyAll_obj_iff (hkeys : ∀ edit ∈ edits, ∃ key, edit.key? = some key)
    (h : (Members.keys members).Nodup) (state : String → Option Json) :
    (∃ after, applyAll edits (.obj members) = .ok (.obj after) ∧ (Members.keys after).Nodup ∧
        ∀ key, Members.find? key after = state key) ↔
      ∀ key, effects (below key edits) (Members.find? key members) = some (state key) := by
  induction edits generalizing members with
  | nil =>
    constructor
    · rintro ⟨after, happly, -, hafter⟩ key
      obtain rfl := Json.obj.inj (Except.ok.inj happly)
      exact congrArg some (hafter key)
    · intro hstate
      exact ⟨members, rfl, h, fun key => Option.some.inj (hstate key)⟩
  | cons edit edits ih =>
    obtain ⟨key, hkey⟩ := hkeys edit List.mem_cons_self
    have hrest := fun other hother => hkeys other (List.mem_cons_of_mem edit hother)
    rw [effects_below_cons hkey h]
    constructor
    · rintro ⟨after, happly, hafter⟩
      obtain ⟨next, hnext, happly⟩ := Except.foldlM_cons_eq_ok_iff.1 happly
      obtain ⟨member, heffect, rfl⟩ := (apply_obj_iff hkey).1 hnext
      exact ⟨member, heffect,
        (ih hrest (Members.nodup_keys_assign h member)).1 ⟨after, happly, hafter⟩⟩
    · rintro ⟨member, heffect, hstate⟩
      obtain ⟨after, happly, hafter⟩ := (ih hrest (Members.nodup_keys_assign h member)).2 hstate
      have hnext := (apply_obj_iff hkey).2 ⟨member, heffect, rfl⟩
      exact ⟨after, Except.foldlM_cons_eq_ok_iff.2 ⟨_, hnext, happly⟩, hafter⟩

theorem exists_obj_of_applyAll (hkeys : ∀ edit ∈ edits, ∃ key, edit.key? = some key)
    (h : (Members.keys members).Nodup) (hresult : applyAll edits (.obj members) = .ok result) :
    ∃ after, result = .obj after ∧ (Members.keys after).Nodup := by
  refine applyAll_preserves (P := fun now => ∃ after, now = .obj after ∧ (Members.keys after).Nodup)
    (fun edit hedit before next hbefore hnext => ?_) ⟨members, rfl, h⟩ hresult
  obtain ⟨before, rfl, hnodup⟩ := hbefore
  obtain ⟨key, hkey⟩ := hkeys edit hedit
  obtain ⟨member, -, rfl⟩ := (apply_obj_iff hkey).1 hnext
  exact ⟨_, rfl, Members.nodup_keys_assign hnodup member⟩

/-- What all edits leave of a member is what the edits below it leave. -/
theorem effects_of_applyAll {after : List (String × Json)}
    (hkeys : ∀ edit ∈ edits, ∃ key, edit.key? = some key) (h : (Members.keys members).Nodup)
    (hresult : applyAll edits (.obj members) = .ok (.obj after)) (key : String) :
    effects (below key edits) (Members.find? key members) = some (Members.find? key after) := by
  obtain ⟨_, hafter, hnodup⟩ := exists_obj_of_applyAll hkeys h hresult
  obtain rfl := Json.obj.inj hafter
  exact (applyAll_obj_iff hkeys h fun key => Members.find? key after).1
    ⟨after, hresult, hnodup, fun _ => rfl⟩ key

/-- Edits in another order, but in the same order below every member, leave the same members. -/
theorem exists_applyAll_reordered {edits' : List Edit}
    (hkeys : ∀ edit ∈ edits, ∃ key, edit.key? = some key)
    (hkeys' : ∀ edit ∈ edits', ∃ key, edit.key? = some key) (h : (Members.keys members).Nodup)
    (hbelow : ∀ key, below key edits = below key edits')
    (hresult : applyAll edits (.obj members) = .ok result) :
    ∃ after after', result = .obj after ∧ applyAll edits' (.obj members) = .ok (.obj after') ∧
      after.Perm after' := by
  obtain ⟨after, rfl, hnodup⟩ := exists_obj_of_applyAll hkeys h hresult
  have hstate := effects_of_applyAll hkeys h hresult
  simp only [hbelow] at hstate
  obtain ⟨after', hresult', hnodup', hafter'⟩ := (applyAll_obj_iff hkeys' h _).2 hstate
  exact ⟨after, after', rfl, hresult',
    Members.perm_of_find?_eq hnodup hnodup' fun key => (hafter' key).symm⟩

/-- Lists of edits with the same edits below every key have the same outcome. -/
theorem applyAll_reordered {edits' : List Edit}
    (hkeys : ∀ edit ∈ edits, ∃ key, edit.key? = some key)
    (hkeys' : ∀ edit ∈ edits', ∃ key, edit.key? = some key) (h : (Members.keys members).Nodup)
    (hbelow : ∀ key, below key edits = below key edits') :
    SameOutcome (applyAll edits (.obj members)) (applyAll edits' (.obj members)) := by
  cases hresult : applyAll edits (.obj members) with
  | ok result =>
    obtain ⟨after, after', rfl, hresult', hperm⟩ :=
      exists_applyAll_reordered hkeys hkeys' h hbelow hresult
    rw [hresult']
    exact .object hperm
  | error fault =>
    cases hresult' : applyAll edits' (.obj members) with
    | error fault' => exact .fault fault fault'
    | ok result' =>
      obtain ⟨-, after, -, hother, -⟩ :=
        exists_applyAll_reordered hkeys' hkeys h (fun key => (hbelow key).symm) hresult'
      simp [hother] at hresult

end Edit

end Scim
