import Scim.Proofs.Attribute.Walk

/-!
Setting the value that some names lead to. A member that is there is set under the key that it has
and a missing one under its name, so that the names lead to the new value, and every other place
keeps what it has.
-/
namespace Scim.Config

variable {config : Config} {document value old : Json} {name : String} {names : List String}
  {members : List (String × Json)}

theorem find?_set_of_find? (test : String → Bool) {key : String}
    (h : members.find? (fun member => test member.1) = some (key, old)) :
    (Members.set key value members).find? (fun member => test member.1) = some (key, value) := by
  have hkey : test key = true :=
    List.find?_some (p := fun member : String × Json => test member.1) h
  induction members with
  | nil => simp at h
  | cons member rest ih =>
    obtain ⟨first, child⟩ := member
    rw [Members.set]
    by_cases hfirst : first = key
    · simp [hfirst, hkey]
    · rw [if_neg hfirst]
      by_cases htest : test first = true
      · simp [htest, hfirst] at h
      · simp only [List.find?_cons, htest] at h ⊢
        exact ih h

/-- A name stands for the same member after the member has got another value. -/
theorem member?_set {key : String} (h : config.member? members name = some (key, old)) :
    config.member? (Members.set key value members) name = some (key, value) := by
  have hfound := Members.mem_of_find? (member?_eq_some h).2
  unfold member? at h ⊢
  rcases Option.or_eq_some_iff.1 h with hexact | ⟨hexact, hfolded⟩
  · rw [find?_set_of_find? (· == name) hexact, Option.some_or]
  · have hnone : (Members.set key value members).find? (fun member => member.1 == name) = none := by
      apply List.find?_eq_none.2
      intro member hmember
      rcases Members.mem_of_mem_set hmember with rfl | hmember
      · exact List.find?_eq_none.1 hexact (key, old) hfound
      · exact List.find?_eq_none.1 hexact member hmember
    rw [hnone, Option.none_or]
    by_cases hcase : config.caseExact = true
    · simp [hcase] at hfolded
    · rw [if_neg hcase] at hfolded ⊢
      exact find?_set_of_find? (Text.sameFolded · name) hfolded

theorem find?_set_self (value : Json) (members : List (String × Json)) :
    (Members.set name value members).find? (fun member => member.1 == name) =
      some (name, value) := by
  induction members with
  | nil => simp [Members.set]
  | cons member rest ih =>
    obtain ⟨first, child⟩ := member
    rw [Members.set]
    by_cases hfirst : first = name
    · simp [hfirst]
    · rw [if_neg hfirst, List.find?_cons]
      simp only [beq_false_of_ne hfirst, ih]

/-- A name stands for the member that was set under its key. -/
theorem member?_set_spelled (config : Config) (name : String) (value : Json)
    (members : List (String × Json)) :
    config.member? (Members.set (config.spelled members name) value members) name =
      some (config.spelled members name, value) := by
  rw [spelled, key?]
  cases hmember : config.member? members name with
  | none =>
    rw [Option.map_none, Option.getD_none, member?, find?_set_self, Option.some_or]
  | some member =>
    obtain ⟨key, child⟩ := member
    exact member?_set hmember

/-- Sets the value that some names lead to, through objects. Members that are missing are made. -/
def assign (config : Config) (value : Json) : List String → Json → Json
  | [], _ => value
  | name :: names, document =>
    let members := document.members?.getD []
    .obj (Members.set (config.spelled members name)
      (config.assign value names ((config.child? document name).getD (.obj []))) members)

theorem child?_empty (config : Config) (name : String) : config.child? (.obj []) name = none := by
  simp [child?, Json.members?, member?]

theorem onWay_empty (names : List String) : config.OnWay (·.isObject = true) names (.obj []) := by
  cases names with
  | nil => exact onWay_nil _ _
  | cons name names =>
    rw [onWay_cons_iff]
    refine ⟨rfl, ?_⟩
    intro child hchild
    simp [config.child?_empty] at hchild

/-- A way through objects starts at one, and what stands at the first name, or is made there, starts
the rest of the way. -/
theorem OnWay.step (h : config.OnWay (·.isObject = true) (name :: names) document) :
    (∃ members, document = .obj members) ∧
      config.OnWay (·.isObject = true) names ((config.child? document name).getD (.obj [])) := by
  obtain ⟨hdocument, hnext⟩ := onWay_cons_iff.1 h
  refine ⟨Json.isObject_eq_true hdocument, ?_⟩
  cases hchild : config.child? document name with
  | none => exact onWay_empty names
  | some child => exact hnext child hchild

/-- Setting a value that is there exchanges it. -/
theorem assign_eq_put (h : config.follow names document = some old) (value : Json) :
    config.assign value names document =
      Json.put (config.tokens names (some document)) value document := by
  induction names generalizing document with
  | nil => rfl
  | cons name names ih =>
    obtain ⟨child, hchild, hold⟩ := Option.bind_eq_some_iff.1 h
    obtain ⟨members, -, rfl, -⟩ := child?_eq_some_iff.1 hchild
    have hfind := (config.find?_spelled members name).trans hchild
    rw [tokens_obj, hchild, Option.getD_some, Json.put_obj hfind, assign, hchild, Option.getD_some,
      ih hold]
    rfl

/-- Setting a value leaves all other places alone, as long as none of the two lies inside the
other. -/
theorem reach_assign_of_apart (h : config.OnWay (·.isObject = true) names document) (value : Json)
    {other : List String} (hpath : ¬config.tokens names (some document) <+: other)
    (hother : ¬other <+: config.tokens names (some document)) :
    (config.assign value names document).reach other = document.reach other := by
  induction names generalizing document other with
  | nil => exact absurd List.nil_prefix hpath
  | cons name names ih =>
    obtain ⟨⟨members, rfl⟩, hnext⟩ := h.step
    rw [tokens_obj] at hpath hother
    cases other with
    | nil => exact absurd List.nil_prefix hother
    | cons key other =>
      by_cases hkey : config.spelled members name = key
      · subst hkey
        rw [List.prefix_cons_inj] at hpath hother
        have hrest := ih hnext hpath hother
        have hchild := config.find?_spelled members name
        rw [assign, Json.reach, Json.reach, Json.members?, Option.getD_some, Members.find?_set_self,
          Option.bind_some, hrest, hchild]
        cases config.child? (.obj members) name with
        | some child => rfl
        | none =>
          cases other with
          | nil => exact absurd List.nil_prefix hother
          | cons key other => rfl
      · rw [assign, Json.reach, Json.reach, Json.members?, Option.getD_some,
          Members.find?_set_of_ne hkey]

/-- On the way to the new value stands what stood there before, or what was made there, with the value
set below. -/
theorem follow_assign_append (value : Json) (names rest : List String) (document : Json) :
    config.follow names (config.assign value (names ++ rest) document) =
      some (config.assign value rest ((config.follow names document).getD (.obj []))) := by
  induction names generalizing document with
  | nil => rfl
  | cons name names ih =>
    rw [List.cons_append, assign, follow,
      child?_eq_some_iff.2 ⟨_, _, rfl, config.member?_set_spelled name _ _⟩, Option.bind_some, ih,
      follow]
    cases config.child? document name with
    | some child => rfl
    | none =>
      cases names with
      | nil => rfl
      | cons next names => rw [Option.getD_none, follow, config.child?_empty]; rfl

/-- What is assigned is found under the same names. -/
theorem follow_assign (value : Json) (names : List String) (document : Json) :
    config.follow names (config.assign value names document) = some value := by
  have hfollow := config.follow_assign_append value names [] document
  rwa [List.append_nil] at hfollow

/-- A member that was missing on the way has become an object with one member. -/
theorem follow_assign_of_none {before rest : List String}
    (h : config.follow before document = none) (value : Json) :
    config.follow before (config.assign value (before ++ name :: rest) document) =
      some (.obj [(name, config.assign value rest (.obj []))]) := by
  rw [follow_assign_append, h, Option.getD_none, assign, config.child?_empty]
  simp [Json.members?, spelled, key?, member?, Members.set]

/-- Exchanging the value at the tokens of some names exchanges what they lead to. -/
theorem follow_put (h : config.follow names document = some old) (value : Json) :
    config.follow names (Json.put (config.tokens names (some document)) value document) =
      some value := by
  rw [← assign_eq_put h]
  exact follow_assign value names document

/-- Setting a value once more changes nothing. -/
theorem assign_assign (config : Config) (value : Json) (names : List String) (document : Json) :
    config.assign value names (config.assign value names document) =
      config.assign value names document := by
  have hfollow := config.follow_assign value names document
  rw [assign_eq_put hfollow]
  exact Json.put_of_reach ((config.reach_tokens names _).trans hfollow)

end Scim.Config
