import Scim.Patch.Conversion
import Scim.Patch.Edit
import Scim.Proofs.Attribute.Path
import Scim.Proofs.Number.Digits
import Scim.Proofs.Result

/-!
Pointers as texts and as tokens. The text of a pointer determines its tokens, and it is read as these
tokens unless they are a single empty one, whose text is read as the root. Index tokens spell their
index, and no token that starts like an attribute name spells any.
-/
namespace Scim.Pointer

open AttributePath Digits

theorem toList_foldl_join (tokens : List String) (base : String) :
    (tokens.foldl join base).toList =
      base.toList ++ tokens.flatMap fun token => '/' :: escapedChars token.toList := by
  induction tokens generalizing base with
  | nil => simp
  | cons token tokens ih =>
    rw [List.foldl_cons, ih, List.flatMap_cons]
    simp [join, escaped]

theorem toList_text (tokens : List String) :
    (text tokens).toList = tokens.flatMap fun token => '/' :: escapedChars token.toList := by
  rw [text, toList_foldl_join]
  simp

theorem slash_not_mem_escapedChars (cs : List Char) : '/' ∉ escapedChars cs := by
  intro h
  obtain ⟨c, -, hc⟩ := List.mem_flatMap.1 h
  unfold escapedChar at hc
  split at hc
  · simp at hc
  split at hc
  · simp at hc
  · rename_i hslash
    exact hslash (List.mem_singleton.1 hc).symm

/-- A slash in front of every part is a slash in front and one between the parts. -/
theorem flatMap_slash_eq_intercalate (part : List Char) (parts : List (List Char)) :
    (part :: parts).flatMap ('/' :: ·) = '/' :: ['/'].intercalate (part :: parts) := by
  induction parts generalizing part with
  | nil => simp
  | cons next parts ih =>
    rw [List.flatMap_cons, ih]
    simp [List.intercalate_cons_cons]

theorem exists_split_text {tokens : List String} (h : tokens ≠ []) :
    ∃ cs, (text tokens).toList = '/' :: cs ∧
      (cs.splitOn '/').map (fun token => String.ofList (unescapedChars token)) = tokens := by
  have hparts : tokens.map (fun token => escapedChars token.toList) ≠ [] := by simpa using h
  refine ⟨['/'].intercalate (tokens.map fun token => escapedChars token.toList), ?_, ?_⟩
  · cases tokens with
    | nil => exact absurd rfl h
    | cons token tokens =>
      rw [toList_text, List.map_cons, ← flatMap_slash_eq_intercalate]
      simp only [List.flatMap_cons, List.flatMap_map]
  · have hslash : ∀ part ∈ tokens.map (fun token => escapedChars token.toList), '/' ∉ part := by
      intro part hpart
      obtain ⟨token, -, rfl⟩ := List.mem_map.1 hpart
      exact slash_not_mem_escapedChars _
    rw [List.splitOn_intercalate '/' hslash hparts, List.map_map]
    refine List.map_id'' (fun token => ?_) tokens
    simp only [Function.comp_apply, unescapedChars_escapedChars, String.ofList_toList]

/-- The text of a pointer determines its tokens. -/
theorem text_injective {left right : List String} (h : text left = text right) : left = right := by
  have hempty : ∀ tokens : List String, text tokens = text [] → tokens = [] := by
    intro tokens htext
    cases tokens with
    | nil => rfl
    | cons token tokens =>
      obtain ⟨cs, hcs, -⟩ := exists_split_text (List.cons_ne_nil token tokens)
      rw [htext] at hcs
      simp [text] at hcs
  by_cases hleft : left = []
  · rw [hleft] at h
    rw [hleft, hempty right h.symm]
  by_cases hright : right = []
  · rw [hright] at h
    exact absurd (hempty left h) hleft
  obtain ⟨cs, hcs, rfl⟩ := exists_split_text hleft
  obtain ⟨ds, hds, rfl⟩ := exists_split_text hright
  rw [h, hds] at hcs
  rw [(List.cons.inj hcs).2]

/-- The text of the single empty token is the other text of the root. -/
theorem parse_text {tokens : List String} (h : tokens ≠ [""]) : parse (text tokens) = some tokens := by
  by_cases hnil : tokens = []
  · subst hnil
    rfl
  obtain ⟨cs, hcs, hsplit⟩ := exists_split_text hnil
  unfold parse
  rw [hcs]
  cases cs with
  | nil => exact absurd hsplit.symm h
  | cons c cs => exact congrArg some hsplit

theorem parse_text_blank : parse (text [""]) = some [] := rfl

theorem ne_blank_of_leadsName {tokens : List String} {name : String} (hname : LeadsName name)
    (h : name ∈ tokens) : tokens ≠ [""] := by
  rintro rfl
  obtain ⟨c, cs, hcs, -⟩ := hname
  simp [List.mem_singleton.1 h] at hcs

theorem index?_indexToken (n : Nat) : index? (Patch.indexToken n) = some n := by
  have hplain : Nat.toDigits 10 n = ['0'] ∨
      (Nat.toDigits 10 n ≠ [] ∧ (Nat.toDigits 10 n).head? ≠ some '0') :=
    (toDigits_plain n).imp_right fun h => ⟨Nat.toDigits_ne_nil, h⟩
  simp only [index?, Patch.indexToken, String.toList_ofList, hplain, all_isDigit_toDigits, if_true,
    Nat.ofDigitChars_ten_toDigits]

/-- A printed index is read back wherever it is below the bound. -/
theorem index_indexToken (n bound : Nat) :
    Edit.index (Patch.indexToken n) bound =
      if n < bound then .ok n else .error (.invalidIndex (Patch.indexToken n)) := by
  have hsign := head?_toDigits_ne (show '+'.isDigit = false from rfl) n
  simp only [Edit.index, Patch.indexToken, String.toList_ofList, hsign, if_false, toDigits_plain,
    all_isDigit_toDigits, Nat.toDigits_ne_nil, ne_eq, not_false_eq_true, true_and,
    Nat.ofDigitChars_ten_toDigits]

theorem indexToken_injective {m n : Nat} (h : Patch.indexToken m = Patch.indexToken n) : m = n := by
  have hindex := congrArg index? h
  rw [index?_indexToken, index?_indexToken] at hindex
  exact Option.some.inj hindex

/-- Every index has one token that is a digit text without sign and needless zeros. -/
theorem index?_eq_some_iff {token : String} {index : Nat} :
    index? token = some index ↔ token = Patch.indexToken index := by
  constructor
  · intro h
    simp only [index?] at h
    split at h
    · rename_i hplain
      split at h
      · rename_i hdigits
        have hne : token.toList ≠ [] := by
          rcases hplain with hzero | hplain
          · simp [hzero]
          · exact hplain.1
        have hprinted := toDigits_ofDigitChars (hplain.imp_right And.right) hne
          (List.all_eq_true.1 hdigits)
        rw [← Option.some.inj h, Patch.indexToken, hprinted, String.ofList_toList]
      · simp at h
    · simp at h
  · rintro rfl
    exact index?_indexToken index

/-- The index that a token spells is the same for every bound above it. -/
theorem index_of_index {token : String} {bound position : Nat}
    (h : Edit.index token bound = .ok position) {other : Nat} (hother : position < other) :
    Edit.index token other = .ok position := by
  simp only [Edit.index, Except.ite_eq_ok_iff] at h ⊢
  obtain ⟨⟨hplain, hdigits, hall, -⟩, hvalue⟩ := h
  exact ⟨⟨hplain, hdigits, hall, by rwa [hvalue]⟩, hvalue⟩

theorem lt_of_index {token : String} {bound position : Nat}
    (h : Edit.index token bound = .ok position) : position < bound := by
  simp only [Edit.index, Except.ite_eq_ok_iff] at h
  obtain ⟨⟨-, -, -, hbound⟩, hvalue⟩ := h
  rwa [hvalue] at hbound

/-- Without a plus sign in front an index is spelled as it is printed. -/
theorem eq_indexToken_of_index {token : String} {bound position : Nat}
    (h : Edit.index token bound = .ok position) (hsign : token.toList.head? ≠ some '+') :
    token = Patch.indexToken position := by
  simp only [Edit.index, Except.ite_eq_ok_iff, if_neg hsign] at h
  obtain ⟨⟨hplain, hne, hdigits, -⟩, rfl⟩ := h
  rw [Patch.indexToken, toDigits_ofDigitChars hplain hne (List.all_eq_true.1 hdigits),
    String.ofList_toList]

theorem index_dash (bound : Nat) : Edit.index "-" bound = .error (.invalidIndex "-") := rfl

theorem index?_of_leadsName {name : String} (h : LeadsName name) : index? name = none := by
  obtain ⟨c, cs, hname, hc⟩ := h
  simp [index?, hname, (not_isDigit_of_isNameStart hc).1]

theorem index_of_leadsName {name : String} (h : LeadsName name) (bound : Nat) :
    Edit.index name bound = .error (.invalidIndex name) := by
  obtain ⟨c, cs, hname, hc⟩ := h
  obtain ⟨hdigit, hsign, -⟩ := not_isDigit_of_isNameStart hc
  simp [Edit.index, hname, hdigit, hsign]

end Scim.Pointer

namespace Scim.Patch

open AttributePath

def Plain (token : String) : Prop := LeadsName token ∨ ∃ index, token = indexToken index

theorem Plain.unsigned {token : String} (h : Plain token) :
    token ≠ "-" ∧ token.toList.head? ≠ some '+' := by
  rcases h with ⟨c, cs, hname, hc⟩ | ⟨index, rfl⟩
  · constructor
    · rintro rfl
      obtain rfl : '-' = c := (List.cons.inj hname).1
      exact Bool.noConfusion hc
    · rw [hname]
      intro hhead
      exact (not_isDigit_of_isNameStart hc).2.1 (Option.some.inj hhead)
  · constructor
    · intro hdash
      have hhead := Digits.head?_toDigits_ne (show '-'.isDigit = false from rfl) index
      rw [indexToken] at hdash
      exact hhead (by rw [← String.toList_ofList (l := Nat.toDigits 10 index), hdash]; rfl)
    · rw [indexToken, String.toList_ofList]
      exact Digits.head?_toDigits_ne (show '+'.isDigit = false from rfl) index

theorem Plain.index_eq {token : String} (h : Plain token) {bound position : Nat}
    (hposition : Edit.index token bound = .ok position) : token = indexToken position :=
  Pointer.eq_indexToken_of_index hposition h.unsigned.2

theorem not_leadsName_indexToken (index : Nat) : ¬LeadsName (indexToken index) := by
  intro h
  have hnone := Pointer.index?_of_leadsName h
  rw [Pointer.index?_indexToken] at hnone
  simp at hnone

end Scim.Patch
