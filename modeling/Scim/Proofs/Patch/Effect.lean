import Scim.Proofs.Patch.Place

/-!
What edits do, told by the values at all places. A replacement changes the value at its place. An
addition sets a member, or takes a place in an array and moves the elements behind it up; objects
that it finds missing hold nothing but what it adds. A removal takes a member out, or an element, and
moves the elements behind it down. No value apart from that is another one afterwards.
-/
namespace Scim.Edit

open Pointer

def nested : List String → Json → Json
  | [], value => value
  | token :: tokens, value => .obj [(token, nested tokens value)]

/-- How the document after an edit differs from the one before. -/
inductive Effect (before after : Json) : PatchOp → Option Json → List String → Prop
  | replaced {tokens : List String} {value old : Json} (hold : find tokens before = some old)
      (hnew : lookup (place tokens before) after = some value)
      (hkeeps : Keeps (place tokens before) before after) :
      Effect before after .replace (some value) tokens
  | memberAdded {way rest : List String} {token : String} {members : List (String × Json)}
      {value : Json} (hparent : find way before = some (.obj members))
      (hcreated : rest ≠ [] → Members.find? token members = none ∧
        lookup (place way before ++ [token]) after = some (nested rest value))
      (hnew : lookup (place (way ++ token :: rest) before) after = some value)
      (hkeeps : Keeps (place (way ++ token :: rest) before) before after) :
      Effect before after .add (some value) (way ++ token :: rest)
  | elementAdded {way : List String} {last : String} {items : List Json} {position : Nat}
      {value : Json} (hparent : find way before = some (.arr items))
      (hposition : if last = "-" then position = items.length
        else index last (items.length + 1) = .ok position)
      (hnew : lookup (place way before) after = some (.arr (items.insertIdx position value)))
      (hkeeps : Keeps (place way before) before after) :
      Effect before after .add (some value) (way ++ [last])
  | memberRemoved {way : List String} {last : String} {members : List (String × Json)}
      {value : Option Json} (hparent : find way before = some (.obj members))
      (hold : (Members.find? last members).isSome = true)
      (hgone : lookup (place (way ++ [last]) before) after = none)
      (hkeeps : Keeps (place (way ++ [last]) before) before after) :
      Effect before after .remove value (way ++ [last])
  | elementRemoved {way : List String} {last : String} {items : List Json} {position : Nat}
      {value : Option Json} (hparent : find way before = some (.arr items))
      (hposition : index last items.length = .ok position)
      (hgone : lookup (place way before) after = some (.arr (items.eraseIdx position)))
      (hkeeps : Keeps (place way before) before after) :
      Effect before after .remove value (way ++ [last])

variable {token last : String} {tokens way rest : List String} {before after value : Json}
  {members : List (String × Json)}

/-- A replacement puts the value at its place and changes nothing else. -/
theorem effect_replace (h : replace tokens value before = .ok after) :
    Effect before after .replace (some value) tokens := by
  obtain ⟨old, new, hold, hnew, hlookup, hkeeps⟩ := update_eq_ok h
  obtain rfl : value = new := Except.ok.inj hnew
  exact .replaced hold hlookup hkeeps

/-- The place of a member, or of something below a member that is missing. -/
theorem place_member (hparent : find way before = some (.obj members))
    (hmissing : rest ≠ [] → Members.find? token members = none) :
    place (way ++ token :: rest) before = place way before ++ token :: rest := by
  have hkey : key token (.obj members) = token := rfl
  rw [place_append hparent, place, hkey, lookup_member]
  by_cases hrest : rest = []
  · rw [hrest]
    rfl
  · rw [hmissing hrest, Option.getD_none, place_empty]

theorem keeps_singleton (h : ∀ other, other ≠ token → lookup [other] after = lookup [other] before) :
    Keeps [token] before after := by
  intro other hother
  cases other with
  | nil => exact absurd hother (not_apart_nil _)
  | cons other others =>
    have hne : other ≠ token := fun heq => (apart_cons_iff.1 hother heq).1 List.nil_prefix
    rw [lookup_cons, lookup_cons other others before, h other hne]

/-- A removal closes the gap in an array and changes nothing else. -/
theorem effect_remove (hdistinct : before.DistinctKeys) (h : remove tokens before = .ok after)
    (removed : Option Json) : Effect before after .remove removed tokens := by
  rcases List.eq_nil_or_concat tokens with rfl | ⟨way, last, rfl⟩
  · simp [remove] at h
  rw [List.concat_eq_append, remove_concat] at h
  rw [List.concat_eq_append]
  obtain ⟨parent, new, hparent, hnew, hlookup, hkeeps⟩ := update_eq_ok h
  cases parent with
  | obj members =>
    rw [removeChild] at hnew
    split at hnew
    · simp at hnew
    rename_i old hold
    obtain rfl := Except.ok.inj hnew
    have hkeys : (Members.keys members).Nodup := (distinctKeys_lookup hdistinct hparent).keys_nodup
    have hplace : place (way ++ [last]) before = place way before ++ [last] :=
      place_member hparent (absurd rfl)
    refine .memberRemoved hparent (by rw [hold]; rfl) ?_ ?_
    · rw [hplace, lookup_append, hlookup, Option.bind_some, lookup_member]
      exact Members.find?_erase_self hkeys
    · rw [hplace]
      refine hkeeps.append hparent hlookup (keeps_singleton fun other hother => ?_)
      rw [lookup_member, lookup_member, Members.find?_erase_of_ne hkeys (Ne.symm hother)]
  | arr items =>
    obtain ⟨position, hposition, rfl⟩ := Except.map_eq_ok_iff.1 hnew
    exact .elementRemoved hparent hposition hlookup hkeeps
  | _ => simp [removeChild] at hnew

theorem add_empty (hne : tokens ≠ []) (value : Json) :
    add tokens value (.obj []) = .ok (nested tokens value) := by
  induction tokens with
  | nil => exact absurd rfl hne
  | cons token rest ih =>
    cases rest with
    | nil => rfl
    | cons next rest =>
      have hrest := List.cons_ne_nil next rest
      rw [add_cons_obj hrest]
      exact congrArg (Except.map _) (ih hrest)

/-- An addition that misses a child is made in a new member of an object. -/
theorem add_cons_missing (hrest : rest ≠ []) (hchild : lookup [key token before] before = none)
    (h : add (token :: rest) value before = .ok after) : ∃ members, before = .obj members ∧
      Members.find? token members = none ∧ addChild token (nested rest value) before = .ok after := by
  cases before with
  | obj members =>
    have hmissing := (lookup_member token members).symm.trans hchild
    rw [add_cons_obj hrest, hmissing, Option.getD_none, add_empty hrest] at h
    exact ⟨members, rfl, hmissing, h⟩
  | arr items =>
    cases rest with
    | nil => exact absurd rfl hrest
    | cons next rest =>
      obtain ⟨position, hposition, -⟩ := Except.bind_eq_ok_iff.1 h
      have hitem := List.getElem?_eq_getElem (lt_of_index hposition)
      rw [lookup_key_arr.2 ⟨position, hposition, hitem⟩] at hchild
      cases hchild
  | _ =>
    cases rest with
    | nil => exact absurd rfl hrest
    | cons next rest => simp [add, addBelow] at h

/-- An addition adds one child somewhere on its way: the value itself at the end of the way, or
objects around the value where a member is missing. -/
theorem add_eq_ok (hne : tokens ≠ []) (h : add tokens value before = .ok after) :
    ∃ way token rest, tokens = way ++ token :: rest ∧
      update (addChild token (nested rest value)) way before = .ok after ∧
      (rest ≠ [] → ∃ members, find way before = some (.obj members) ∧
        Members.find? token members = none) := by
  induction tokens generalizing before after with
  | nil => exact absurd rfl hne
  | cons token rest ih =>
    by_cases hrest : rest = []
    · subst hrest
      exact ⟨[], token, [], rfl, h, absurd rfl⟩
    cases hchild : lookup [key token before] before with
    | none =>
      -- The way ends here: the missing member is added with all that belongs below it.
      obtain ⟨members, rfl, hmissing, hadd⟩ := add_cons_missing hrest hchild h
      exact ⟨[], token, rest, rfl, hadd, fun _ => ⟨members, rfl, hmissing⟩⟩
    | some child =>
      rw [add_cons hrest hchild] at h
      obtain ⟨child', changed, hchanged, hexchanges⟩ := descend_eq_ok h
      obtain rfl := Option.some.inj (hchild.symm.trans hexchanges.found)
      obtain ⟨way, last, below, rfl, hupdate, hmissing⟩ := ih hrest hchanged
      refine ⟨token :: way, last, below, rfl, ?_, fun hbelow => ?_⟩
      · rw [← h]
        exact descend_congr hchild (hupdate.trans hchanged.symm)
      · rw [find_cons, hchild]
        exact hmissing hbelow

/-- A new way leads to the value and to nothing else. -/
theorem lookup_nested (tokens : List String) (value : Json) :
    lookup tokens (nested tokens value) = some value := by
  induction tokens with
  | nil => rfl
  | cons token tokens ih =>
    rw [nested, lookup_cons, lookup_member, Members.find?_cons, if_pos rfl, Option.bind_some, ih]

theorem lookup_nested_of_apart {other : List String} (h : Apart tokens other) (value : Json) :
    lookup other (nested tokens value) = none := by
  induction tokens generalizing other with
  | nil => exact absurd List.nil_prefix h.1
  | cons token tokens ih =>
    cases other with
    | nil => exact absurd h (not_apart_nil _)
    | cons other others =>
      rw [nested, lookup_cons, lookup_member, Members.find?_cons]
      by_cases heq : token = other
      · rw [if_pos heq, Option.bind_some, ih (apart_cons_iff.1 h heq.symm)]
      · rw [if_neg heq]
        rfl

/-- A member that is set with objects around a value keeps what is apart from the value, as there
was nothing in the objects before. -/
theorem keeps_set_nested (hmissing : rest ≠ [] → Members.find? token members = none)
    (value : Json) : Keeps (token :: rest) (.obj members)
      (.obj (Members.set token (nested rest value) members)) := by
  intro other hother
  cases other with
  | nil => exact absurd hother (not_apart_nil _)
  | cons other others =>
    rw [lookup_cons, lookup_cons other others (.obj members), lookup_member, lookup_member]
    by_cases heq : other = token
    · subst heq
      have hbelow := apart_cons_iff.1 hother rfl
      have hrest : rest ≠ [] := by
        rintro rfl
        exact hbelow.1 List.nil_prefix
      rw [Members.find?_set_self, hmissing hrest, Option.bind_some]
      exact lookup_nested_of_apart hbelow value
    · rw [Members.find?_set_of_ne (Ne.symm heq)]

/-- An addition makes room in an array or sets a member, and makes the way where there is none. -/
theorem effect_add (hne : tokens ≠ []) (h : add tokens value before = .ok after) :
    Effect before after .add (some value) tokens := by
  obtain ⟨way, token, rest, rfl, hupdate, hmissing⟩ := add_eq_ok hne h
  obtain ⟨parent, new, hparent, hnew, hlookup, hkeeps⟩ := update_eq_ok hupdate
  cases parent with
  | obj members =>
    obtain rfl := Except.ok.inj hnew
    have hnone : rest ≠ [] → Members.find? token members = none := by
      intro hrest
      obtain ⟨members', hparent', hnone⟩ := hmissing hrest
      obtain rfl := Json.obj.inj (Option.some.inj (hparent.symm.trans hparent'))
      exact hnone
    have hmember : lookup (place way before ++ [token]) after = some (nested rest value) := by
      rw [lookup_append, hlookup, Option.bind_some, lookup_member, Members.find?_set_self]
    refine .memberAdded hparent (fun hrest => ⟨hnone hrest, hmember⟩) ?_ ?_
    · rw [place_member hparent hnone, List.append_cons, lookup_append, hmember, Option.bind_some]
      exact lookup_nested rest value
    · rw [place_member hparent hnone]
      exact hkeeps.append hparent hlookup (keeps_set_nested hnone value)
  | arr items =>
    have hrest : rest = [] := by
      by_contra hrest
      obtain ⟨members, hparent', -⟩ := hmissing hrest
      cases hparent.symm.trans hparent'
    subst hrest
    rw [addChild] at hnew
    split at hnew
    · rename_i hdash
      obtain rfl := Except.ok.inj hnew
      rw [← List.insertIdx_length_self] at hlookup
      exact .elementAdded hparent (by rw [if_pos hdash]) hlookup hkeeps
    · rename_i hdash
      obtain ⟨position, hposition, rfl⟩ := Except.map_eq_ok_iff.1 hnew
      exact .elementAdded hparent (by rwa [if_neg hdash]) hlookup hkeeps
  | _ => simp [addChild] at hnew

/-- An edit that can be applied at a place other than the root does what it says and nothing else.
Tokens without dashes and plus signs are those of the place. -/
theorem apply_effect {edit : Edit} (hdistinct : before.DistinctKeys)
    (hparse : Pointer.parse edit.pointer = some tokens) (hne : tokens ≠ [])
    (h : edit.apply before = .ok after) : Effect before after edit.op edit.value tokens ∧
      ((∀ token ∈ tokens, token ≠ "-" ∧ token.toList.head? ≠ some '+') →
        place tokens before = tokens) := by
  refine ⟨?_, fun hplain => place_eq_self hplain before⟩
  obtain ⟨tokens', hparse', hcases⟩ := apply_cases h
  obtain rfl := Option.some.inj (hparse.symm.trans hparse')
  obtain ⟨hop, h⟩ | ⟨value, hvalue, ⟨hop, h⟩ | ⟨hop, h⟩⟩ := hcases
  · rw [hop]
    exact effect_remove hdistinct h edit.value
  · rw [hop, hvalue]
    exact effect_add hne h
  · rw [hop, hvalue]
    exact effect_replace h

/-- A member that is removed lets the last one take its position, an index has a plus sign in front,
and two objects are created, one of them under a dash. -/
theorem apply_effect_sample : ∃ document removed inserted created,
    document = .obj [("a", .arr [.num "1", .num "2"]), ("b", .null), ("c", .bool true)] ∧
    document.DistinctKeys ∧
    removed = .obj [("c", .bool true), ("b", .null)] ∧
    apply ⟨.remove, "/a", none⟩ document = .ok removed ∧
    Effect document removed .remove none ["a"] ∧
    inserted = .obj [("a", .arr [.num "1", .str "x", .num "2"]), ("b", .null), ("c", .bool true)] ∧
    apply ⟨.add, "/a/+1", some (.str "x")⟩ document = .ok inserted ∧
    Effect document inserted .add (some (.str "x")) ["a", "+1"] ∧
    created = .obj [("a", .arr [.num "1", .num "2"]), ("b", .null), ("c", .bool true),
      ("d", .obj [("-", .obj [("e", .str "x")])])] ∧
    apply ⟨.add, "/d/-/e", some (.str "x")⟩ document = .ok created ∧
    Effect document created .add (some (.str "x")) ["d", "-", "e"] := by
  have hdistinct : (Json.obj [("a", .arr [.num "1", .num "2"]), ("b", .null),
      ("c", .bool true)]).DistinctKeys := by
    refine .obj (by decide) fun member hmember => ?_
    simp only [List.mem_cons, List.not_mem_nil, or_false] at hmember
    rcases hmember with rfl | rfl | rfl
    · refine .arr fun item hitem => ?_
      rcases List.mem_pair.1 hitem with rfl | rfl
      · exact .num "1"
      · exact .num "2"
    · exact .null
    · exact .bool true
  have heffect := fun edit tokens hparse hne after h =>
    (@apply_effect tokens _ after edit hdistinct hparse hne h).1
  refine ⟨_, _, _, _, rfl, hdistinct, rfl, rfl, ?_, rfl, rfl, ?_, rfl, rfl, ?_⟩
  · exact heffect ⟨.remove, "/a", none⟩ ["a"] rfl (by simp) _ rfl
  · exact heffect ⟨.add, "/a/+1", some (.str "x")⟩ ["a", "+1"] rfl (by simp) _ rfl
  · exact heffect ⟨.add, "/d/-/e", some (.str "x")⟩ ["d", "-", "e"] rfl (by simp) _ rfl

end Scim.Edit
