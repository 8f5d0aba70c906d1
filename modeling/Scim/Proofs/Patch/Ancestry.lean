import Scim.Proofs.Patch.Pointer
import Scim.Proofs.Text.Basic

/-!
Pointers at or below other pointers. The tokens of the outer one are the first tokens of the inner
one, and the texts show it: the inner one is the outer one or goes on behind it with a slash. Escaped
slashes cannot imitate this, and neither can a token that only starts like another one.
-/
namespace Scim.Pointer

open Text

/-- The reference tokens of a text, where a lone slash stands in front of an empty token. -/
def references? (text : String) : Option (List String) :=
  match text.toList with
  | [] => some []
  | '/' :: cs => some ((cs.splitOn '/').map fun token => String.ofList (unescapedChars token))
  | _ => none

/-- The text of a pointer spells its tokens. -/
theorem references?_text (tokens : List String) : references? (text tokens) = some tokens := by
  by_cases hnil : tokens = []
  · subst hnil
    rfl
  · obtain ⟨cs, hcs, hsplit⟩ := exists_split_text hnil
    simp only [references?, hcs, hsplit]

/-- The value that the text of a pointer leads to. Names count exactly as they are written and
indices only as they are printed. -/
def find? (pointer : String) (document : Json) : Option Json :=
  (references? pointer).bind fun tokens => lookup tokens document

theorem find?_text (tokens : List String) (document : Json) :
    find? (text tokens) document = lookup tokens document := by
  rw [find?, references?_text, Option.bind_some]

/-- A text is another text or goes on behind it with a slash. -/
def Covers (outer inner : String) : Prop :=
  ∃ rest, inner.toList = outer.toList ++ rest ∧ Stops (· != '/') rest

theorem toList_text_cons (token : String) (tokens : List String) :
    (text (token :: tokens)).toList = '/' :: (escapedChars token.toList ++ (text tokens).toList) := by
  rw [toList_text, List.flatMap_cons, toList_text, List.cons_append]

theorem stops_text (tokens : List String) : Stops (· != '/') (text tokens).toList := by
  cases tokens with
  | nil => exact stops_nil _
  | cons token tokens =>
    rw [toList_text_cons]
    exact stops_cons rfl _

theorem eq_of_escapedChars_eq {token other : String}
    (h : escapedChars token.toList = escapedChars other.toList) : token = other := by
  have hchars := congrArg unescapedChars h
  rw [unescapedChars_escapedChars, unescapedChars_escapedChars] at hchars
  exact String.toList_inj.1 hchars

theorem ne_slash_of_mem_escapedChars (cs : List Char) : ∀ c ∈ escapedChars cs, (c != '/') = true := by
  intro c hc
  rw [bne_iff_ne]
  rintro rfl
  exact slash_not_mem_escapedChars cs hc

/-- A text that covers another one has its tokens in front. -/
theorem prefix_of_covers {outer inner : List String} (h : Covers (text outer) (text inner)) :
    outer <+: inner := by
  induction outer generalizing inner with
  | nil => exact List.nil_prefix
  | cons token outer ih =>
    obtain ⟨rest, htext, hrest⟩ := h
    cases inner with
    | nil =>
      rw [toList_text_cons] at htext
      simp [text] at htext
    | cons other inner =>
      rw [toList_text_cons, toList_text_cons, List.cons_append, List.append_assoc] at htext
      obtain ⟨htoken, hbelow⟩ := eq_of_append_of_stops (ne_slash_of_mem_escapedChars _)
        (ne_slash_of_mem_escapedChars _) (stops_text inner) (stops_append (stops_text outer) hrest)
        (List.cons.inj htext).2
      rw [eq_of_escapedChars_eq htoken, List.cons_prefix_cons]
      exact ⟨rfl, ih ⟨rest, hbelow, hrest⟩⟩

/-- The texts of two pointers tell whether one is at or around the other. -/
theorem covers_text_iff {outer inner : List String} :
    Covers (text outer) (text inner) ↔ outer <+: inner := by
  refine ⟨prefix_of_covers, ?_⟩
  rintro ⟨more, rfl⟩
  refine ⟨(text more).toList, ?_, stops_text more⟩
  rw [toList_text, List.flatMap_append, toList_text, toList_text]

/-- A name that starts like another one, and names with a slash and a tilde. -/
example : ¬["members"] <+: ["membership"] ∧ text ["a/b", "~"] = "/a~1b/~0" := by decide

end Scim.Pointer
