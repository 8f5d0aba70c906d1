import Scim.Proofs.Patch.Ancestry
import Scim.Proofs.Patch.Overwriting

/-!
Escaping as replacement in the whole of a token. Tildes are escaped before slashes, and slashes are put
back before tildes, so that nothing is escaped or put back twice. Hence tokens come back from the text
of a pointer, and one pointer's text goes on another's exactly where the tokens do.
-/
namespace Scim.Pointer

open Text

/-- Replaces a text from left to right behind the last place where it was found, of which some
characters are still to be passed over. -/
def replacedBehind (old new : List Char) : Nat → List Char → List Char
  | _, [] => []
  | skipped + 1, _ :: cs => replacedBehind old new skipped cs
  | 0, c :: cs =>
    if old.isPrefixOf (c :: cs) then new ++ replacedBehind old new (old.length - 1) cs
    else c :: replacedBehind old new 0 cs

def replaced (old new cs : List Char) : List Char := replacedBehind old new 0 cs

theorem replaced_single (old : Char) (new cs : List Char) :
    replaced [old] new cs = cs.flatMap fun c => if c = old then new else [c] := by
  induction cs with
  | nil => rfl
  | cons c cs ih =>
    rw [replaced] at ih
    rw [replaced, replacedBehind, List.flatMap_cons]
    by_cases hc : c = old
    · simp [hc, ih]
    · simp [hc, Ne.symm hc, ih]

theorem replaced_pair (first second new : Char) (cs : List Char) :
    replaced [first, second] [new] cs = substituted first second new cs := by
  fun_induction substituted first second new cs with
  | case1 c d cs h ih =>
    rw [replaced] at ih
    simp [replaced, replacedBehind, h.1, h.2, ih]
  | case2 c d cs h ih =>
    rw [replaced] at ih
    have hprefix : [first, second].isPrefixOf (c :: d :: cs) = false := by
      simp only [List.isPrefixOf, Bool.and_true, Bool.and_eq_false_iff, beq_eq_false_iff_ne]
      by_cases hc : c = first
      · exact .inr fun hd => h ⟨hc, hd.symm⟩
      · exact .inl (Ne.symm hc)
    rw [replaced, replacedBehind, hprefix, ih]
    rfl
  | case3 cs h =>
    match cs with
    | [] => rfl
    | [c] => simp [replaced, replacedBehind, List.isPrefixOf]
    | c :: d :: cs => exact absurd rfl (h c d cs)

/-- The tilde that stands for a slash is written by the second pass, so the first one leaves it
alone. -/
theorem escapedChars_eq_replaced (token : List Char) :
    escapedChars token = replaced ['/'] ['~', '1'] (replaced ['~'] ['~', '0'] token) := by
  rw [replaced_single, replaced_single, List.flatMap_assoc, escapedChars]
  refine congrArg (List.flatMap · token) (funext fun c => ?_)
  rw [escapedChar]
  split
  · rfl
  · simp

/-- Reading a token back replaces both escapes one after the other. -/
theorem unescapedChars_eq_replaced (part : List Char) :
    unescapedChars part = replaced ['~', '0'] ['~'] (replaced ['~', '1'] ['/'] part) := by
  rw [replaced_pair, replaced_pair, unescapedChars_eq]

/-- A text covers itself and what goes on behind it with a slash. -/
theorem covers_iff {outer inner : String} : Covers outer inner ↔
    outer = inner ∨ ∃ rest, inner.toList = outer.toList ++ '/' :: rest := by
  constructor
  · rintro ⟨rest, hinner, hrest⟩
    cases rest with
    | nil =>
      rw [List.append_nil] at hinner
      exact .inl (String.toList_inj.1 hinner.symm)
    | cons c rest =>
      have hslash : c = '/' := by simpa using hrest c rfl
      exact .inr ⟨rest, by rw [hinner, hslash]⟩
  · rintro (rfl | ⟨rest, hinner⟩)
    · exact ⟨[], (List.append_nil _).symm, stops_nil _⟩
    · exact ⟨'/' :: rest, hinner, stops_cons rfl rest⟩

/-- Escaping and unescaping are two replacements each, and unescaping undoes escaping. The tokens of a
pointer come back from its text, but for the single empty one, whose text is read as the root. The text
of one pointer is that of another one or goes on behind it with a slash exactly if the tokens of the
other one are its first tokens. -/
theorem text_determines_tokens :
    (∀ tokens, parse (text tokens) = some (if tokens = [""] then [] else tokens)) ∧
    (∀ token, (escaped token).toList =
        replaced ['/'] ['~', '1'] (replaced ['~'] ['~', '0'] token.toList) ∧
      (unescaped token).toList =
        replaced ['~', '0'] ['~'] (replaced ['~', '1'] ['/'] token.toList) ∧
      unescaped (escaped token) = token) ∧
    ∀ outer inner, (text outer = text inner ∨
        ∃ rest, (text inner).toList = (text outer).toList ++ '/' :: rest) ↔ outer <+: inner := by
  refine ⟨fun tokens => ?_, fun token => ⟨?_, ?_, unescaped_escaped token⟩, fun outer inner => ?_⟩
  · split
    · rename_i hblank
      rw [hblank, parse_text_blank]
    · rename_i hblank
      exact parse_text hblank
  · rw [escaped, String.toList_ofList, escapedChars_eq_replaced]
  · rw [unescaped, String.toList_ofList, unescapedChars_eq_replaced]
  · rw [← covers_iff, covers_text_iff]

/-- Texts that look escaped, and occurrences that overlap. -/
example : unescaped (escaped "~01/~1") = "~01/~1" ∧ unescaped "~01" = "~1" ∧
    replaced ['a', 'a'] ['b'] ['a', 'a', 'a'] = ['b', 'a'] := by decide

end Scim.Pointer
