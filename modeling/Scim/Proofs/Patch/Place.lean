import Scim.Proofs.Patch.Persistence

/-!
The places that edits address. What a token means depends on the container it is used on: at an array
a plus sign in front of an index says nothing, and a dash stands for the place behind the last
element. A place has one list of tokens, which has neither. Changing the value at a place keeps all
values that are not on the way to it, at it or below it.
-/
namespace Scim

open Patch (indexToken)

namespace Pointer

variable {token : String} {document value : Json}

theorem lookup_cons (token : String) (tokens : List String) (document : Json) :
    lookup (token :: tokens) document = (lookup [token] document).bind (lookup tokens) := by
  have hnil : lookup [] = some := rfl
  cases document with
  | obj members => rw [lookup, lookup, hnil, Option.bind_fun_some]
  | arr items => rw [lookup, lookup, hnil, Option.bind_fun_some]
  | _ => rfl

/-- A lookup goes on where another one ends. -/
theorem lookup_append (tokens inner : List String) (document : Json) :
    lookup (tokens ++ inner) document = (lookup tokens document).bind (lookup inner) := by
  induction tokens generalizing document with
  | nil => rfl
  | cons token tokens ih =>
    rw [List.cons_append, lookup_cons, lookup_cons token tokens, Option.bind_assoc]
    exact congrArg _ (funext ih)

theorem lookup_member (token : String) (members : List (String × Json)) :
    lookup [token] (.obj members) = Members.find? token members :=
  Option.bind_fun_some _

theorem lookup_indexToken (index : Nat) (items : List Json) :
    lookup [indexToken index] (.arr items) = items[index]? := by
  rw [lookup, index?_indexToken, Option.bind_some]
  exact Option.bind_fun_some _

/-- The elements of an array stand at the printed forms of their indices. -/
theorem lookup_element_iff {items : List Json} : lookup [token] (.arr items) = some value ↔
    ∃ index, token = indexToken index ∧ items[index]? = some value := by
  constructor
  · intro h
    obtain ⟨item, hitem, hvalue⟩ := Option.bind_eq_some_iff.1 h
    obtain rfl := Option.some.inj hvalue
    obtain ⟨index, hindex, hitem⟩ := Option.bind_eq_some_iff.1 hitem
    exact ⟨index, index?_eq_some_iff.1 hindex, hitem⟩
  · rintro ⟨index, rfl, hitem⟩
    rwa [lookup_indexToken]

theorem distinctKeys_child (h : document.DistinctKeys)
    (hvalue : lookup [token] document = some value) : value.DistinctKeys := by
  cases document with
  | obj members =>
    rw [lookup_member] at hvalue
    exact h.find hvalue
  | arr items =>
    obtain ⟨index, -, hitem⟩ := lookup_element_iff.1 hvalue
    exact h.item (List.mem_of_getElem? hitem)
  | _ => simp [lookup] at hvalue

theorem distinctKeys_lookup {tokens : List String} (h : document.DistinctKeys)
    (hvalue : lookup tokens document = some value) : value.DistinctKeys := by
  induction tokens generalizing document with
  | nil => exact Option.some.inj hvalue ▸ h
  | cons token tokens ih =>
    rw [lookup_cons] at hvalue
    obtain ⟨child, hchild, hvalue⟩ := Option.bind_eq_some_iff.1 hvalue
    exact ih (distinctKeys_child h hchild) hvalue

end Pointer

namespace Edit

open Pointer

def key (token : String) : Json → String
  | .arr items =>
    if token = "-" then indexToken items.length
    else match index token (items.length + 1) with
      | .ok position => indexToken position
      | .error _ => token
  | _ => token

/-- The tokens of the place that some tokens mean. What is missing is taken for an empty object. -/
def place : List String → Json → List String
  | [], _ => []
  | token :: tokens, document =>
    key token document ::
      place tokens ((lookup [key token document] document).getD (.obj []))

def find (tokens : List String) (document : Json) : Option Json :=
  lookup (place tokens document) document

def Apart (place other : List String) : Prop := ¬place <+: other ∧ ¬other <+: place

/-- All values apart from a place are the same in two documents. -/
def Keeps (place : List String) (before after : Json) : Prop :=
  ∀ other, Apart place other → lookup other after = lookup other before

structure Exchanges (token : String) (child changed before after : Json) : Prop where
  found : lookup [token] before = some child
  lookup_eq : ∀ other,
    lookup [other] after = if other = token then some changed else lookup [other] before

variable {token : String} {tokens rest inner : List String}
  {before after child changed old new document : Json} {items : List Json}
  {change next : Json → Except EditFault Json}

theorem key_of_index {bound position : Nat} (h : index token bound = .ok position)
    (hposition : position ≤ items.length) : key token (.arr items) = indexToken position := by
  have hdash : token ≠ "-" := by
    rintro rfl
    rw [index_dash] at h
    cases h
  rw [key, if_neg hdash, index_of_index h (Nat.lt_succ_of_le hposition)]

/-- A token that is no dash and has no plus sign in front means itself. -/
theorem key_eq_self (hdash : token ≠ "-") (hsign : token.toList.head? ≠ some '+')
    (document : Json) : key token document = token := by
  cases document with
  | arr items =>
    rw [key, if_neg hdash]
    split
    · rename_i position hposition
      exact (eq_indexToken_of_index hposition hsign).symm
    · rfl
  | _ => rfl

/-- Navigating finds an element exactly where its key leads to one. -/
theorem lookup_key_arr : lookup [key token (.arr items)] (.arr items) = some child ↔
    ∃ position, index token items.length = .ok position ∧ items[position]? = some child := by
  constructor
  · intro h
    obtain ⟨position, hkey, hitem⟩ := lookup_element_iff.1 h
    have hlt : position < items.length := (List.getElem?_eq_some_iff.1 hitem).1
    refine ⟨position, ?_, hitem⟩
    rw [key] at hkey
    -- A dash stands for an index that no element has.
    split at hkey
    · rw [indexToken_injective hkey] at hlt
      exact absurd hlt (Nat.lt_irrefl _)
    split at hkey
    · rename_i hposition
      obtain rfl := indexToken_injective hkey
      exact index_of_index hposition hlt
    · rw [hkey, index_indexToken, if_pos hlt]
  · rintro ⟨position, hposition, hitem⟩
    rw [key_of_index hposition (Nat.le_of_lt (lt_of_index hposition)), lookup_indexToken, hitem]

theorem place_cons (hchild : lookup [key token document] document = some child) :
    place (token :: rest) document = key token document :: place rest child := by
  rw [place, hchild, Option.getD_some]

theorem find_cons (token : String) (rest : List String) (document : Json) :
    find (token :: rest) document = (lookup [key token document] document).bind (find rest) := by
  rw [find, place, lookup_cons]
  cases lookup [key token document] document <;> rfl

theorem find_append (tokens inner : List String) (document : Json) :
    find (tokens ++ inner) document = (find tokens document).bind (find inner) := by
  induction tokens generalizing document with
  | nil => rfl
  | cons token tokens ih =>
    rw [List.cons_append, find_cons, find_cons, Option.bind_assoc]
    exact congrArg _ (funext ih)

theorem place_append (hold : find tokens document = some old) :
    place (tokens ++ inner) document = place tokens document ++ place inner old := by
  induction tokens generalizing document with
  | nil =>
    obtain rfl : document = old := Option.some.inj hold
    rfl
  | cons token tokens ih =>
    rw [find_cons] at hold
    obtain ⟨child, hchild, hold⟩ := Option.bind_eq_some_iff.1 hold
    rw [List.cons_append, place_cons hchild, place_cons hchild, ih hold, List.cons_append]

theorem place_empty (tokens : List String) : place tokens (.obj []) = tokens := by
  induction tokens with
  | nil => rfl
  | cons token tokens ih => exact congrArg (token :: ·) ih

/-- Tokens without a dash or a sign mean the place that they spell. -/
theorem place_eq_self (hplain : ∀ token ∈ tokens, token ≠ "-" ∧ token.toList.head? ≠ some '+')
    (document : Json) : place tokens document = tokens := by
  induction tokens generalizing document with
  | nil => rfl
  | cons token tokens ih =>
    obtain ⟨hdash, hsign⟩ := hplain token List.mem_cons_self
    have hrest := fun next hnext => hplain next (List.mem_cons_of_mem token hnext)
    rw [place, key_eq_self hdash hsign, ih hrest]

example : place ["a", "+0", "-"] (.obj [("a", .arr [.arr [.null]])]) = ["a", "0", "1"] := rfl

theorem not_apart_nil (place : List String) : ¬Apart place [] :=
  fun h => h.2 List.nil_prefix

theorem keeps_nil (before after : Json) : Keeps [] before after := by
  intro other hother
  exact absurd List.nil_prefix hother.1

theorem apart_cons_iff {other : String} {others : List String} :
    Apart (token :: rest) (other :: others) ↔ (other = token → Apart rest others) := by
  simp only [Apart, List.cons_prefix_cons, not_and]
  constructor
  · rintro ⟨hbelow, habove⟩ rfl
    exact ⟨hbelow rfl, habove rfl⟩
  · intro h
    exact ⟨fun heq => (h heq.symm).1, fun heq => (h heq).2⟩

theorem Exchanges.keeps (h : Exchanges token child changed before after)
    (hrest : Keeps rest child changed) : Keeps (token :: rest) before after := by
  intro other hother
  cases other with
  | nil => exact absurd hother (not_apart_nil _)
  | cons other others =>
    rw [lookup_cons, lookup_cons other others before, h.lookup_eq]
    by_cases heq : other = token
    · subst heq
      rw [if_pos rfl, h.found]
      exact hrest others (apart_cons_iff.1 hother rfl)
    · rw [if_neg heq]

theorem Exchanges.lookup_cons_self (h : Exchanges token child changed before after) :
    lookup (token :: rest) after = lookup rest changed := by
  rw [lookup_cons, h.lookup_eq, if_pos rfl, Option.bind_some]

theorem Keeps.append (h : Keeps tokens before after) (hbefore : lookup tokens before = some old)
    (hafter : lookup tokens after = some new) (hinner : Keeps inner old new) :
    Keeps (tokens ++ inner) before after := by
  intro other hother
  by_cases hbelow : tokens <+: other
  · obtain ⟨others, rfl⟩ := hbelow
    rw [lookup_append, lookup_append, hbefore, hafter]
    refine hinner others ⟨fun hprefix => hother.1 ?_, fun hprefix => hother.2 ?_⟩
    · exact (List.prefix_append_right_inj tokens).2 hprefix
    · exact (List.prefix_append_right_inj tokens).2 hprefix
  · refine h other ⟨hbelow, fun habove => hother.2 ?_⟩
    exact habove.trans (List.prefix_append tokens inner)

theorem descend_obj {members : List (String × Json)} (hchild : Members.find? token members = some child)
    (change : Json → Except EditFault Json) : descend token change (.obj members) =
      (change child).map fun child => .obj (Members.set token child members) := by
  rw [descend, hchild]

theorem descend_arr {position : Nat} (hposition : index token items.length = .ok position)
    (hitem : items[position]? = some child) (change : Json → Except EditFault Json) :
    descend token change (.arr items) =
      (change child).map fun child => .arr (items.set position child) := by
  have hget : items.getD position .null = child := by
    rw [List.getD_eq_getElem?_getD, hitem, Option.getD_some]
  simp only [descend, hposition, bind, Except.bind, hget]
  cases change child <;> rfl

theorem index_of_getElem? {position : Nat} (hitem : items[position]? = some child) :
    index (indexToken position) items.length = .ok position := by
  rw [index_indexToken, if_pos (List.getElem?_eq_some_iff.1 hitem).1]

theorem descend_congr (hchild : lookup [key token document] document = some child)
    (h : change child = next child) : descend token change document = descend token next document := by
  cases document with
  | obj members =>
    have hfound := (lookup_member token members).symm.trans hchild
    rw [descend_obj hfound, descend_obj hfound, h]
  | arr items =>
    obtain ⟨position, hposition, hitem⟩ := lookup_key_arr.1 hchild
    rw [descend_arr hposition hitem, descend_arr hposition hitem, h]
  | _ => rfl

theorem exists_descend (hchild : lookup [key token before] before = some child)
    (hchange : change child = .ok changed) : ∃ after, descend token change before = .ok after := by
  cases before with
  | obj members =>
    have hfound := (lookup_member token members).symm.trans hchild
    refine ⟨.obj (Members.set token changed members), ?_⟩
    rw [descend_obj hfound, hchange]
    rfl
  | arr items =>
    obtain ⟨position, hposition, hitem⟩ := lookup_key_arr.1 hchild
    refine ⟨.arr (items.set position changed), ?_⟩
    rw [descend_arr hposition hitem, hchange]
    rfl
  | _ => simp [lookup] at hchild

/-- A changed child is the only one that is another one afterwards. -/
theorem descend_eq_ok (h : descend token change before = .ok after) :
    ∃ child changed, change child = .ok changed ∧
      Exchanges (key token before) child changed before after := by
  cases before with
  | obj members =>
    rw [descend] at h
    split at h
    · simp at h
    rename_i child hchild
    obtain ⟨changed, hchange, rfl⟩ := Except.map_eq_ok_iff.1 h
    refine ⟨child, changed, hchange, (lookup_member token members).trans hchild, ?_⟩
    intro other
    rw [lookup_member, lookup_member]
    by_cases hother : other = token
    · rw [hother, Members.find?_set_self]
      exact (if_pos rfl).symm
    · rw [Members.find?_set_of_ne (Ne.symm hother)]
      exact (if_neg hother).symm
  | arr items =>
    obtain ⟨position, hposition, h⟩ := Except.bind_eq_ok_iff.1 h
    obtain ⟨changed, hchange, h⟩ := Except.bind_eq_ok_iff.1 h
    obtain rfl := Except.ok.inj h
    have hlt := lt_of_index hposition
    have hitem := List.getElem?_eq_getElem hlt
    have hkey := key_of_index hposition (Nat.le_of_lt hlt)
    rw [List.getD_eq_getElem?_getD, hitem, Option.getD_some] at hchange
    refine ⟨_, changed, hchange, lookup_key_arr.2 ⟨position, hposition, hitem⟩, ?_⟩
    intro other
    by_cases hother : other = indexToken position
    · rw [hkey, if_pos hother, hother, lookup_indexToken, List.getElem?_set_self hlt]
    · rw [hkey, if_neg hother]
      refine Option.ext fun value => ?_
      rw [lookup_element_iff, lookup_element_iff]
      refine exists_congr fun index => and_congr_right fun hindex => ?_
      have hne : position ≠ index := by
        rintro rfl
        exact hother hindex
      rw [List.getElem?_set_ne hne]
  | _ => simp [descend] at h

/-- An update changes the value at its place and keeps all values apart from it. -/
theorem update_eq_ok (h : update change tokens before = .ok after) :
    ∃ old new, find tokens before = some old ∧ change old = .ok new ∧
      lookup (place tokens before) after = some new ∧ Keeps (place tokens before) before after := by
  induction tokens generalizing before after with
  | nil => exact ⟨before, after, rfl, h, rfl, keeps_nil before after⟩
  | cons token tokens ih =>
    obtain ⟨child, changed, hchange, hexchanges⟩ := descend_eq_ok h
    obtain ⟨old, new, hold, hnew, hlookup, hkeeps⟩ := ih hchange
    refine ⟨old, new, ?_, hnew, ?_⟩
    · rw [find_cons, hexchanges.found]
      exact hold
    · rw [place_cons hexchanges.found]
      exact ⟨hexchanges.lookup_cons_self.trans hlookup, hexchanges.keeps hkeeps⟩

/-- It succeeds exactly if the value is there and can be changed. -/
theorem exists_update_iff : (∃ after, update change tokens before = .ok after) ↔
    ∃ old new, find tokens before = some old ∧ change old = .ok new := by
  induction tokens generalizing before with
  | nil =>
    constructor
    · rintro ⟨after, h⟩
      exact ⟨before, after, rfl, h⟩
    · rintro ⟨old, new, hold, hnew⟩
      obtain rfl : before = old := Option.some.inj hold
      exact ⟨new, hnew⟩
  | cons token tokens ih =>
    constructor
    · rintro ⟨after, h⟩
      obtain ⟨old, new, hold, hnew, -⟩ := update_eq_ok h
      exact ⟨old, new, hold, hnew⟩
    · rintro ⟨old, new, hold, hnew⟩
      rw [find_cons] at hold
      obtain ⟨child, hchild, hold⟩ := Option.bind_eq_some_iff.1 hold
      obtain ⟨changed, hchanged⟩ := ih.2 ⟨old, new, hold, hnew⟩
      exact exists_descend hchild hchanged

theorem add_cons_obj (hrest : rest ≠ []) (key : String) (value : Json)
    (members : List (String × Json)) : add (key :: rest) value (.obj members) =
      (add rest value ((Members.find? key members).getD (.obj []))).map fun child =>
        .obj (Members.set key child members) := by
  cases rest with
  | nil => exact absurd rfl hrest
  | cons next rest => rfl

/-- An addition below a child that is there changes the child. -/
theorem add_cons (hrest : rest ≠ []) (hchild : lookup [key token document] document = some child)
    (value : Json) : add (token :: rest) value document = descend token (add rest value) document := by
  cases document with
  | obj members =>
    have hfound := (lookup_member token members).symm.trans hchild
    rw [add_cons_obj hrest, descend_obj hfound, hfound, Option.getD_some]
  | arr items =>
    cases rest with
    | nil => exact absurd rfl hrest
    | cons next rest => rfl
  | _ => simp [lookup] at hchild

/-- A child can be removed exactly if it is there. -/
theorem exists_removeChild_iff : (∃ after, removeChild token before = .ok after) ↔
    (lookup [key token before] before).isSome = true := by
  cases before with
  | obj members =>
    rw [key, lookup_member, removeChild]
    · cases Members.find? token members <;> simp
    · simp
  | arr items =>
    rw [Option.isSome_iff_exists, removeChild]
    constructor
    · rintro ⟨after, h⟩
      obtain ⟨position, hposition, -⟩ := Except.map_eq_ok_iff.1 h
      have hitem := List.getElem?_eq_getElem (lt_of_index hposition)
      exact ⟨_, lookup_key_arr.2 ⟨position, hposition, hitem⟩⟩
    · rintro ⟨child, hchild⟩
      obtain ⟨position, hposition, -⟩ := lookup_key_arr.1 hchild
      exact ⟨.arr (items.eraseIdx position), Except.map_eq_ok_iff.2 ⟨position, hposition, rfl⟩⟩
  | _ => simp [removeChild, lookup]

theorem remove_concat (tokens : List String) (last : String) (document : Json) :
    remove (tokens ++ [last]) document = update (removeChild last) tokens document := by
  simp only [remove, List.getLast?_concat, List.dropLast_concat]

/-- A value can be removed exactly where there is one, but for the document itself. -/
theorem exists_remove_iff_find : (∃ after, remove tokens before = .ok after) ↔
    tokens ≠ [] ∧ (find tokens before).isSome = true := by
  rcases List.eq_nil_or_concat tokens with rfl | ⟨parents, last, rfl⟩
  · simp [remove]
  rw [List.concat_eq_append, remove_concat, exists_update_iff, find_append]
  cases hparent : find parents before with
  | none => simp
  | some parent =>
    have hlast : find [last] parent = lookup [key last parent] parent := rfl
    rw [Option.bind_some, hlast, ← exists_removeChild_iff]
    simp

end Edit

end Scim
