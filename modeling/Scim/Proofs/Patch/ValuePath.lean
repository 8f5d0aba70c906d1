import Scim.Patch.ValuePath
import Scim.Proofs.Attribute.Lookup
import Scim.Proofs.Result

/-!
What the paths of operations consist of: an attribute that was read as one, and perhaps a
sub-attribute that has names only.
-/
namespace Scim

namespace PatchPath

/-- No path is read from the empty text. -/
theorem ne_empty_of_parse {text : String} {path : PatchPath} (h : parse text = .ok path) :
    text ≠ "" := by
  rintro rfl
  have hempty : parse "" = .error (.malformedPath "" (.invalidAttribute .empty)) := rfl
  simp [hempty] at h

/-- The attribute in front of the filter, or the whole path. -/
def target : PatchPath → AttributePath
  | plain path => path
  | filtered path => path.target

def sub? : PatchPath → Option AttributePath
  | plain _ => none
  | filtered path => path.sub

theorem parseAttribute_eq_ok {cs : List Char} {path : AttributePath}
    (h : parseAttribute cs = .ok path) : AttributePath.parse (String.ofList cs) = .ok path := by
  unfold parseAttribute at h
  split at h
  · rename_i path' hpath
    rw [hpath, Except.ok.inj h]
  · simp at h

theorem parseSub_eq_ok {text : Option (List Char)} {sub : Option AttributePath}
    (h : parseSub text = .ok sub) : ∀ path ∈ sub, path.schema = none ∧
      ∃ subText, AttributePath.parse subText = .ok path := by
  intro path hpath
  obtain rfl := Option.mem_def.1 hpath
  cases text with
  | none => simp [parseSub] at h
  | some cs =>
    obtain ⟨found, hfound, h⟩ := Except.bind_eq_ok_iff.1 h
    cases hschema : found.schema with
    | some schema =>
      rw [hschema] at h
      simp [throw, throwThe, MonadExceptOf.throw, bind, Except.bind] at h
    | none =>
      rw [hschema] at h
      obtain rfl := Option.some.inj (Except.ok.inj h)
      exact ⟨hschema, _, parseAttribute_eq_ok hfound⟩

/-- The two ways to read a path: a text with a filter part by part, and any other text without
brackets as an attribute. -/
theorem parse_cases {text : String} {path : PatchPath} (h : parse text = .ok path) :
    (∃ target filter sub value, split text.toList = some (target, filter, sub) ∧
      path = .filtered value ∧ parseAttribute target = .ok value.target ∧
      parseFilter filter = .ok value.filter ∧ parseSub sub = .ok value.sub) ∨
    (text.toList.any isBracket = false ∧
      ∃ target, path = .plain target ∧ parseAttribute text.toList = .ok target) := by
  unfold parse at h
  split at h
  · rename_i path' hchars
    obtain rfl := Except.ok.inj h
    unfold parseChars at hchars
    split at hchars
    · rename_i target filter sub hsplit
      obtain ⟨first, hfirst, hchars⟩ := Except.bind_eq_ok_iff.1 hchars
      obtain ⟨second, hsecond, hchars⟩ := Except.bind_eq_ok_iff.1 hchars
      obtain ⟨third, hthird, hchars⟩ := Except.bind_eq_ok_iff.1 hchars
      obtain rfl := Except.ok.inj hchars
      exact .inl ⟨target, filter, sub, ⟨first, second, third⟩, hsplit, rfl, hfirst, hsecond, hthird⟩
    · split at hchars
      · simp at hchars
      · rename_i hany
        obtain ⟨target, htarget, rfl⟩ := Except.map_eq_ok_iff.1 hchars
        exact .inr ⟨Bool.eq_false_iff.2 hany, target, rfl, htarget⟩
  · simp at h

/-- The parts of a path that is read are themselves read from texts. -/
theorem parse_eq_ok {text : String} {path : PatchPath} (h : parse text = .ok path) :
    (∃ targetText, AttributePath.parse targetText = .ok path.target) ∧
      ∀ sub ∈ path.sub?, sub.schema = none ∧
        ∃ subText, AttributePath.parse subText = .ok sub := by
  obtain ⟨_, _, _, value, -, rfl, htarget, -, hsub⟩ | ⟨-, target, rfl, htarget⟩ := parse_cases h
  · exact ⟨⟨_, parseAttribute_eq_ok htarget⟩, parseSub_eq_ok hsub⟩
  · exact ⟨⟨_, parseAttribute_eq_ok htarget⟩, by simp [sub?]⟩

end PatchPath

namespace Patch

/-- The pointer of a path that has been read leads through members alone. -/
theorem lookup_target (config : Config) (document : Json) {text : String} {path : PatchPath}
    (h : PatchPath.parse text = .ok path) :
    Pointer.lookup (config.pointer document path.target) document =
      document.reach (config.pointer document path.target) := by
  obtain ⟨⟨targetText, htarget⟩, -⟩ := PatchPath.parse_eq_ok h
  exact Pointer.lookup_eq_reach (fun _ => Config.leadsName_of_mem_pointer htarget) document

end Patch

end Scim
