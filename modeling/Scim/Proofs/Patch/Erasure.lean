import Scim.Proofs.Patch.Place

/-!
Removals, observed through lookups. Along tokens that are names or printed indices a removal can be
made exactly where the lookup finds a value. Removing a member leaves a value at a place exactly if
there was one and the place is not at or below the member.
-/
namespace Scim

open Patch AttributePath

namespace Edit

open Pointer

variable {token name : String} {tokens : List String} {before after : Json}

/-- Names and printed indices mean themselves. -/
theorem key_of_plain (h : Plain token) (document : Json) : key token document = token :=
  key_eq_self h.unsigned.1 h.unsigned.2 document

/-- Removing a member leaves the others. -/
theorem lookup_removeChild (hname : LeadsName name) (h : before.DistinctKeys)
    (hresult : removeChild name before = .ok after) (other : String) :
    lookup [other] after = if other = name then none else lookup [other] before := by
  cases before with
  | obj members =>
    rw [removeChild] at hresult
    split at hresult
    · simp at hresult
    obtain rfl := Except.ok.inj hresult
    rw [lookup_member, lookup_member]
    split
    · rename_i hother
      rw [hother, Members.find?_erase_self h.keys_nodup]
    · rename_i hother
      rw [Members.find?_erase_of_ne h.keys_nodup (Ne.symm hother)]
  | arr items =>
    rw [removeChild, index_of_leadsName hname] at hresult
    simp [Except.map] at hresult
  | _ => simp [removeChild] at hresult

/-- What can be removed is what is there, except the root. -/
theorem exists_remove_iff (htokens : ∀ token ∈ tokens, Plain token) :
    (∃ after, remove tokens before = .ok after) ↔
      tokens ≠ [] ∧ (lookup tokens before).isSome = true := by
  have hplace := place_eq_self (fun token htoken => (htokens token htoken).unsigned) before
  rw [exists_remove_iff_find, find, hplace]

/-- After the removal of a member there is a value at a place exactly if there was one before and the
place is not at or below the member. -/
theorem isSome_lookup_remove {other : List String} (htokens : ∀ token ∈ tokens, Plain token)
    (hlast : ∀ name, tokens.getLast? = some name → LeadsName name)
    (h : before.DistinctKeys) (hresult : remove tokens before = .ok after) :
    (lookup other after).isSome = (!tokens.isPrefixOf other && (lookup other before).isSome) := by
  induction tokens generalizing other before after with
  | nil => simp [remove] at hresult
  | cons token rest ih =>
    cases other with
    | nil => rfl
    | cons key other =>
      rw [lookup_cons, lookup_cons key other before, List.isPrefixOf_cons_cons]
      cases rest with
      | nil =>
        rw [lookup_removeChild (hlast token rfl) h hresult]
        by_cases heq : key = token
        · simp [heq]
        · simp [heq, beq_false_of_ne (Ne.symm heq)]
      | cons next rest =>
        have hrest := fun next' hnext => htokens next' (List.mem_cons_of_mem token hnext)
        rw [remove_cons_cons] at hresult
        obtain ⟨child, changed, hchange, hexchanges⟩ := descend_eq_ok hresult
        rw [key_of_plain (htokens token List.mem_cons_self)] at hexchanges
        rw [hexchanges.lookup_eq]
        by_cases heq : key = token
        · subst heq
          rw [if_pos rfl, hexchanges.found, Option.bind_some, Option.bind_some, beq_self_eq_true,
            Bool.true_and]
          exact ih hrest hlast (distinctKeys_child h hexchanges.found) hchange
        · simp [heq, beq_false_of_ne (Ne.symm heq)]

end Edit

end Scim
