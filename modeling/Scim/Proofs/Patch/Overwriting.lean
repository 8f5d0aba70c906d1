import Scim.Proofs.Patch.Place
import Scim.Proofs.Patch.Ancestry

/-!
Two ways to follow a pointer. An edit walks down the document token by token and changes what it
finds; a lookup splits the text of the pointer, puts back escaped slashes and then escaped tildes, and
takes members by their names and elements by their printed indices. A replacement succeeds exactly
where the lookup finds a value, and it overwrites this value and nothing else. They part at a lone
slash and at a plus sign in front of an index alone.
-/
namespace Scim

namespace Pointer

/-- Two characters, wherever one follows the other, become a single one, from left to right. -/
def substituted (first second new : Char) : List Char → List Char
  | c :: d :: cs =>
    if c = first ∧ d = second then new :: substituted first second new cs
    else c :: substituted first second new (d :: cs)
  | cs => cs

/-- The token that a part between slashes stands for: slashes are put back before tildes. -/
def token (part : List Char) : String :=
  String.ofList (substituted '~' '0' '~' (substituted '~' '1' '/' part))

def tokens? (pointer : String) : Option (List String) :=
  match pointer.toList with
  | [] => some []
  | '/' :: cs => some ((cs.splitOn '/').map token)
  | _ => none

def child? (target : Json) (token : String) : Option Json :=
  match target with
  | .obj members => Members.find? token members
  | .arr items => (index? token).bind fun index => items[index]?
  | _ => none

def valueAt? (pointer : String) (document : Json) : Option Json :=
  (tokens? pointer).bind fun tokens => tokens.foldlM child? document

variable {first second new c : Char} {cs : List Char}

theorem substituted_cons_of_ne (h : c ≠ first) (cs : List Char) :
    substituted first second new (c :: cs) = c :: substituted first second new cs := by
  cases cs with
  | nil => rfl
  | cons d cs =>
    rw [substituted, if_neg]
    exact fun hc => h hc.1

theorem substituted_cons_of_head (h : cs.head? ≠ some second) (c : Char) :
    substituted first second new (c :: cs) = c :: substituted first second new cs := by
  cases cs with
  | nil => rfl
  | cons d cs =>
    rw [substituted, if_neg]
    rintro ⟨-, rfl⟩
    exact h rfl

theorem substituted_pair (first second new : Char) (cs : List Char) :
    substituted first second new (first :: second :: cs) =
      new :: substituted first second new cs := by
  rw [substituted, if_pos ⟨rfl, rfl⟩]

theorem head?_substituted (cs : List Char) :
    (substituted first second new cs).head? = cs.head? ∨
      (substituted first second new cs).head? = some new := by
  unfold substituted
  split
  · split
    · exact .inr rfl
    · exact .inl rfl
  · exact .inl rfl

/-- Reading a part once from left to right puts back what two passes do: a slash that the first pass
puts back is nothing that the second one could take for escaped. -/
theorem unescapedChars_eq (part : List Char) :
    unescapedChars part = substituted '~' '0' '~' (substituted '~' '1' '/' part) := by
  fun_induction unescapedChars part with
  | case1 cs ih =>
    rw [substituted_cons_of_head (by simp), substituted_cons_of_ne (show '0' ≠ '~' by decide),
      substituted_pair, ih]
  | case2 cs ih => rw [substituted_pair, substituted_cons_of_ne (show '/' ≠ '~' by decide), ih]
  | case3 c cs htilde hslash ih =>
    by_cases hc : c = '~'
    · subst hc
      have hone : cs.head? ≠ some '1' := by
        intro hhead
        obtain ⟨ds, rfl⟩ := List.head?_eq_some_iff.1 hhead
        exact hslash ds rfl rfl
      have hzero : (substituted '~' '1' '/' cs).head? ≠ some '0' := by
        intro hhead
        have hfirst : (substituted '~' '1' '/' cs).head? = cs.head? ∨
            (substituted '~' '1' '/' cs).head? = some '/' := head?_substituted cs
        rcases hfirst with heq | heq
        · rw [heq] at hhead
          obtain ⟨ds, rfl⟩ := List.head?_eq_some_iff.1 hhead
          exact htilde ds rfl rfl
        · rw [heq] at hhead
          simp at hhead
      rw [substituted_cons_of_head hone, substituted_cons_of_head hzero, ih]
    · rw [substituted_cons_of_ne hc, substituted_cons_of_ne hc, ih]
  | case4 => rfl

theorem token_eq (part : List Char) : token part = String.ofList (unescapedChars part) := by
  rw [token, unescapedChars_eq]

theorem tokens?_eq (pointer : String) : tokens? pointer = references? pointer := by
  have htoken : (fun part => String.ofList (unescapedChars part)) = token := (funext token_eq).symm
  rw [references?, htoken]
  rfl

/-- Looking up goes from child to child. -/
theorem lookup_eq_foldlM (tokens : List String) (document : Json) :
    lookup tokens document = tokens.foldlM child? document := by
  induction tokens generalizing document with
  | nil => rfl
  | cons token tokens ih =>
    rw [List.foldlM_cons]
    cases document with
    | obj members => simp only [lookup, child?, ih, Option.bind_eq_bind]
    | arr items => simp only [lookup, child?, ih, Option.bind_eq_bind]
    | _ => rfl

example : token "~01~1~~0".toList = "~1/~~" := by decide

end Pointer

/-- The second document is the first one with another value in the place of the one at some tokens. -/
inductive Overwrites (value : Json) : List String → Json → Json → Json → Prop
  | here (old : Json) : Overwrites value [] old old value
  | member {token : String} {tokens : List String} {front back : List (String × Json)}
      {old child changed : Json} (hfront : token ∉ Members.keys front)
      (h : Overwrites value tokens old child changed) :
      Overwrites value (token :: tokens) old (.obj (front ++ (token, child) :: back))
        (.obj (front ++ (token, changed) :: back))
  | element {tokens : List String} {front back : List Json} {old child changed : Json}
      (h : Overwrites value tokens old child changed) :
      Overwrites value (Patch.indexToken front.length :: tokens) old (.arr (front ++ child :: back))
        (.arr (front ++ changed :: back))

namespace Edit

open Pointer

variable {token pointer : String} {tokens : List String} {value old before after : Json}

theorem replace_cons (token : String) (tokens : List String) (value document : Json) :
    replace (token :: tokens) value document = descend token (replace tokens value) document := rfl

/-- Where a lookup finds a value, a replacement overwrites it. -/
theorem exists_replace (value : Json) (h : lookup tokens before = some old) :
    ∃ after, replace tokens value before = .ok after ∧ Overwrites value tokens old before after := by
  induction tokens generalizing before with
  | nil =>
    obtain rfl := Option.some.inj h
    exact ⟨value, rfl, .here before⟩
  | cons token tokens ih =>
    rw [lookup_cons] at h
    obtain ⟨child, hchild, h⟩ := Option.bind_eq_some_iff.1 h
    obtain ⟨changed, hchanged, hoverwrites⟩ := ih h
    rw [replace_cons]
    cases before with
    | obj members =>
      rw [lookup_member] at hchild
      obtain ⟨front, back, hmembers, hfront, hset⟩ := Members.exists_of_find? changed hchild
      refine ⟨.obj (front ++ (token, changed) :: back), ?_, ?_⟩
      · rw [descend_obj hchild, hchanged, ← hset]
        rfl
      · rw [hmembers]
        exact .member hfront hoverwrites
    | arr items =>
      obtain ⟨index, rfl, hitem⟩ := lookup_element_iff.1 hchild
      obtain ⟨hlt, hget⟩ := List.getElem?_eq_some_iff.1 hitem
      have hsplit : ∃ front back, items = front ++ items[index] :: back ∧
          front.length = index ∧ items.set index changed = front ++ changed :: back :=
        List.exists_of_set hlt
      obtain ⟨front, back, hitems, hlength, hset⟩ := hsplit
      refine ⟨.arr (front ++ changed :: back), ?_, ?_⟩
      · rw [descend_arr (index_of_getElem? hitem) hitem, hchanged, ← hset]
        rfl
      · rw [hitems, hget, ← hlength]
        exact .element hoverwrites
    | _ => simp [lookup] at hchild

/-- Navigating takes a plus sign in front of an index for nothing; without one it finds what a lookup
finds. -/
theorem lookup_key (hsign : token.toList.head? ≠ some '+') (document : Json) :
    lookup [key token document] document = lookup [token] document := by
  by_cases hdash : token = "-"
  · subst hdash
    cases document with
    | arr items =>
      rw [key, if_pos rfl, lookup_indexToken, List.getElem?_eq_none (Nat.le_refl _)]
      rfl
    | _ => rfl
  · rw [key_eq_self hdash hsign]

/-- Without signs in front of indices an edit finds what a lookup finds. -/
theorem find_eq_lookup (hsign : ∀ token ∈ tokens, token.toList.head? ≠ some '+') (document : Json) :
    find tokens document = lookup tokens document := by
  induction tokens generalizing document with
  | nil => rfl
  | cons token tokens ih =>
    have hrest := fun next hnext => hsign next (List.mem_cons_of_mem token hnext)
    rw [find_cons, lookup_key (hsign token List.mem_cons_self), lookup_cons token tokens]
    exact congrArg _ (funext (ih hrest))

theorem parse_eq_tokens? (hslash : pointer ≠ "/") : Pointer.parse pointer = tokens? pointer := by
  rw [tokens?_eq]
  unfold Pointer.parse references?
  split
  · rename_i heq
    rw [heq]
  · rename_i heq
    exact absurd (String.toList_inj.1 heq) hslash
  · rename_i cs hcs heq
    rw [heq]
    rfl
  · rename_i hnil hlone hcons
    split
    · contradiction
    · rename_i cs heq
      exact absurd heq (hcons cs)
    · rfl

/-- A replacement at a pointer succeeds exactly if the lookup finds a value at it. The lookup by tokens
finds the same value, which is overwritten, and all else stays as it is, in its order. -/
theorem replace_iff_valueAt (value document : Json) (hslash : pointer ≠ "/")
    (hsign : ∀ tokens, tokens? pointer = some tokens → ∀ token ∈ tokens,
      token.toList.head? ≠ some '+') :
    ((∃ after, applyAll [⟨.replace, pointer, some value⟩] document = .ok after) ↔
      ∃ old, valueAt? pointer document = some old) ∧
    ∀ after, applyAll [⟨.replace, pointer, some value⟩] document = .ok after →
      ∃ tokens old, tokens? pointer = some tokens ∧ lookup tokens document = some old ∧
        valueAt? pointer document = some old ∧ Overwrites value tokens old document after := by
  have hparse := parse_eq_tokens? hslash
  simp only [applyAll_singleton, apply, hparse, valueAt?]
  cases htokens : tokens? pointer with
  | none => simp
  | some tokens =>
    simp only [located_eq_ok_iff, Option.bind_some, ← lookup_eq_foldlM]
    have hfound : ∀ after, replace tokens value document = .ok after →
        ∃ old, lookup tokens document = some old := by
      intro after hafter
      obtain ⟨old, -, hold, -⟩ := update_eq_ok hafter
      exact ⟨old, (find_eq_lookup (hsign tokens htokens) document).symm.trans hold⟩
    refine ⟨⟨fun ⟨after, hafter⟩ => hfound after hafter, fun ⟨old, hold⟩ => ?_⟩, fun after hafter => ?_⟩
    · obtain ⟨after, hafter, -⟩ := exists_replace value hold
      exact ⟨after, hafter⟩
    · obtain ⟨old, hold⟩ := hfound after hafter
      obtain ⟨after', hafter', hoverwrites⟩ := exists_replace value hold
      obtain rfl := Except.ok.inj (hafter'.symm.trans hafter)
      exact ⟨tokens, old, rfl, hold, hold, hoverwrites⟩

/-- A name with a slash behind a tilde, an empty name, and an element. -/
theorem replace_iff_valueAt_sample : ∃ pointer document after,
    pointer = "/~01~1//1" ∧
    document = .obj [("~1/", .obj [("", .arr [.null, .num "2"])]), ("b", .null)] ∧
    after = .obj [("~1/", .obj [("", .arr [.null, .bool true])]), ("b", .null)] ∧
    pointer ≠ "/" ∧ tokens? pointer = some ["~1/", "", "1"] ∧
    (∀ tokens, tokens? pointer = some tokens → ∀ token ∈ tokens, token.toList.head? ≠ some '+') ∧
    applyAll [⟨.replace, pointer, some (.bool true)⟩] document = .ok after ∧
    ((∃ after, applyAll [⟨.replace, pointer, some (.bool true)⟩] document = .ok after) ↔
      ∃ old, valueAt? pointer document = some old) ∧
    ∃ tokens old, tokens? pointer = some tokens ∧ lookup tokens document = some old ∧
      valueAt? pointer document = some old ∧ Overwrites (.bool true) tokens old document after := by
  have htokens : tokens? "/~01~1//1" = some ["~1/", "", "1"] := rfl
  have hslash : "/~01~1//1" ≠ "/" := by simp
  have hsign : ∀ tokens, tokens? "/~01~1//1" = some tokens →
      ∀ token ∈ tokens, token.toList.head? ≠ some '+' := by
    intro tokens h
    obtain rfl := Option.some.inj (htokens.symm.trans h)
    simp
  have happly : applyAll [⟨.replace, "/~01~1//1", some (.bool true)⟩]
      (.obj [("~1/", .obj [("", .arr [.null, .num "2"])]), ("b", .null)]) =
      .ok (.obj [("~1/", .obj [("", .arr [.null, .bool true])]), ("b", .null)]) := by decide +kernel
  have hreplaced := replace_iff_valueAt (.bool true)
    (.obj [("~1/", .obj [("", .arr [.null, .num "2"])]), ("b", .null)]) hslash hsign
  exact ⟨_, _, _, rfl, rfl, rfl, hslash, htokens, hsign, happly, hreplaced.1,
    hreplaced.2 _ happly⟩

end Edit

end Scim
