import Scim.Attribute.Lookup
import Scim.Proofs.Json.Reach
import Scim.Proofs.Patch.Pointer

/-!
The tokens that an attribute path becomes. Each of them starts like an attribute name, as the name
that was given does, so it never leads into an array and the place that it names is reached through
members alone.
-/
namespace Scim

open AttributePath

theorem AttributePath.LeadsName.of_sameFolded {key name : String} (hname : LeadsName name)
    (h : Text.sameFolded key name = true) : LeadsName key := by
  obtain ⟨c, cs, hcs, hc⟩ := hname
  have hfolded := Text.sameFolded_iff.1 h
  rw [Text.folded, Text.folded, hcs, List.map_cons] at hfolded
  obtain ⟨d, ds, hds, hd, -⟩ := List.map_eq_cons_iff.1 hfolded
  refine ⟨d, ds, hds, ?_⟩
  cases halpha : c.isAlpha with
  | true => simp [isNameStart, Text.isAlpha_of_toLower_eq hd halpha]
  | false =>
    obtain rfl := Text.eq_of_toLower_eq hd halpha
    exact hc

namespace Config

variable {config : Config}

/-- The first member that passes a test is the first one of its name, if the test passes every
member of this name. -/
theorem find?_of_find?_key (test : String → Bool) {members : List (String × Json)} {key : String}
    {value : Json} (h : members.find? (fun member => test member.1) = some (key, value)) :
    Members.find? key members = some value := by
  induction members with
  | nil => simp at h
  | cons member rest ih =>
    obtain ⟨name, first⟩ := member
    rw [Members.find?_cons]
    rw [List.find?_cons] at h
    split at h
    · obtain ⟨rfl, rfl⟩ := Prod.mk.inj (Option.some.inj h)
      exact if_pos rfl
    · rename_i hname
      have htest := List.find?_some h
      have hne : name ≠ key := by
        rintro rfl
        simp [htest] at hname
      rw [if_neg hne]
      exact ih h

/-- The member that is found has the name up to case, and it is the first one with its key. -/
theorem member?_eq_some {members : List (String × Json)} {name key : String} {value : Json}
    (h : config.member? members name = some (key, value)) :
    Text.sameFolded key name = true ∧ Members.find? key members = some value := by
  unfold member? at h
  rcases Option.or_eq_some_iff.1 h with h | ⟨-, h⟩
  · have hkey := List.find?_some h
    obtain rfl : key = name := beq_iff_eq.1 hkey
    exact ⟨Text.sameFolded_refl key, find?_of_find?_key (· == key) h⟩
  · split at h
    · simp at h
    · have hfolded := List.find?_some h
      exact ⟨hfolded, find?_of_find?_key (Text.sameFolded · name) h⟩

/-- A name stands for the member that has it exactly. -/
theorem member?_of_find? (config : Config) {members : List (String × Json)} {name : String}
    {value : Json} (h : Members.find? name members = some value) :
    config.member? members name = some (name, value) := by
  have hexact : members.find? (fun member => member.1 == name) = some (name, value) := by
    induction members with
    | nil => simp [Members.find?] at h
    | cons member members ih =>
      rw [Members.find?_cons] at h
      split at h
      · rename_i hname
        obtain rfl := Option.some.inj h
        subst hname
        simp
      · rename_i hname
        simp [hname, ih h]
  rw [member?, hexact, Option.some_or]

/-- The key under which an object has a name, or the name itself where the object has none. -/
def spelled (config : Config) (members : List (String × Json)) (name : String) : String :=
  (config.key? members name).getD name

theorem key?_eq_some {members : List (String × Json)} {name key : String}
    (h : config.key? members name = some key) :
    key ∈ Members.keys members ∧ Text.sameFolded key name = true := by
  obtain ⟨⟨_, value⟩, hmember, rfl⟩ := Option.map_eq_some_iff.1 h
  obtain ⟨hfolded, hfind⟩ := member?_eq_some hmember
  exact ⟨List.mem_map_of_mem (Members.mem_of_find? hfind), hfolded⟩

theorem spelled_ne_empty {members : List (String × Json)} {name : String} (h : name ≠ "") :
    config.spelled members name ≠ "" := by
  rw [spelled]
  cases hkey : config.key? members name with
  | none => exact h
  | some key =>
    rintro rfl
    have hfolded : [] = Text.folded name := Text.sameFolded_iff.1 (key?_eq_some hkey).2
    exact h (String.toList_eq_nil_iff.1 (List.map_eq_nil_iff.1 hfolded.symm))

/-- A name is looked up among the members that differ from it in case at most. -/
theorem member?_filter (config : Config) (members : List (String × Json)) (name : String) :
    config.member? (members.filter fun member => Text.sameFolded member.1 name) name =
      config.member? members name := by
  have hexact : ∀ member : String × Json,
      (Text.sameFolded member.1 name = true ∧ (member.1 == name) = true) ↔
        (member.1 == name) = true := by
    refine fun member => and_iff_right_of_imp fun hname => ?_
    rw [beq_iff_eq.1 hname]
    exact Text.sameFolded_refl name
  simp only [member?, List.find?_filter, hexact, and_self, Bool.decide_eq_true]

/-- Objects with the same members of a name, whatever its case, find the same member. One of them
has no two members that differ in case alone. -/
theorem member?_congr {left right : List (String × Json)} {name : String}
    (hleft : left.Pairwise fun member other => Text.sameFolded member.1 other.1 = false)
    (hright : (Members.keys right).Nodup)
    (h : ∀ key, Text.sameFolded key name = true →
      Members.find? key left = Members.find? key right) :
    config.member? left name = config.member? right name := by
  have hkeys := Members.nodup_keys_of_folded hleft
  have hmem : ∀ member, member ∈ left.filter (fun member => Text.sameFolded member.1 name) ↔
      member ∈ right.filter fun member => Text.sameFolded member.1 name := by
    rintro ⟨key, value⟩
    simp only [List.mem_filter, Members.mem_iff_find? hkeys, Members.mem_iff_find? hright]
    exact and_congr_left fun hkey => by rw [h key hkey]
  have hperm := (List.perm_ext_iff_of_nodup ((Members.nodup_of_keys hkeys).filter _)
    ((Members.nodup_of_keys hright).filter _)).2 hmem
  rw [← config.member?_filter left, ← config.member?_filter right]
  cases hfound : left.filter fun member => Text.sameFolded member.1 name with
  | nil =>
    rw [hfound] at hperm
    rw [hperm.nil_eq]
  | cons first rest =>
    have hfolded := hleft.filter fun member => Text.sameFolded member.1 name
    have hnames : ∀ member ∈ first :: rest, Text.sameFolded member.1 name = true := by
      rw [← hfound]
      exact fun member hmember => (List.mem_filter.1 hmember).2
    rw [hfound] at hperm hfolded
    cases rest with
    | nil => rw [List.singleton_perm.1 hperm]
    | cons second rest =>
      have hsame := Text.sameFolded_trans (hnames first List.mem_cons_self)
        (Text.sameFolded_symm (hnames second (List.mem_cons_of_mem _ List.mem_cons_self)))
      have hother := (List.pairwise_cons.1 hfolded).1 second List.mem_cons_self
      simp [hsame] at hother

theorem leadsName_of_mem_tokens {names : List String} (hnames : ∀ name ∈ names, LeadsName name)
    {document : Option Json} {token : String} (htoken : token ∈ config.tokens names document) :
    LeadsName token := by
  induction names generalizing document with
  | nil => simp [tokens] at htoken
  | cons name names ih =>
    have hrest := fun name hname => hnames name (List.mem_cons_of_mem _ hname)
    have hname := hnames name List.mem_cons_self
    rw [tokens] at htoken
    split at htoken
    · rename_i key child hmember
      obtain ⟨members, -, hmember⟩ := Option.bind_eq_some_iff.1 hmember
      rcases List.mem_cons.1 htoken with rfl | htoken
      · exact hname.of_sameFolded (member?_eq_some hmember).1
      · exact ih hrest htoken
    · rcases List.mem_cons.1 htoken with rfl | htoken
      · exact hname
      · exact ih hrest htoken

theorem leadsName_of_mem_names {text : String} {path : AttributePath}
    (hpath : AttributePath.parse text = .ok path) {name : String}
    (hname : name ∈ config.names path) : LeadsName name := by
  obtain ⟨hschema, hsegments⟩ := leadsName_of_parse hpath
  rcases List.mem_append.1 hname with hname | hname
  · exact hschema name (Option.mem_toList.1 (List.mem_filter.1 hname).1)
  · exact hsegments name hname

/-- The tokens of a path's pointer start like names, so none of them is an index. -/
theorem leadsName_of_mem_pointer {text : String} {path : AttributePath}
    (hpath : AttributePath.parse text = .ok path) {document : Json} {token : String}
    (htoken : token ∈ config.pointer document path) : LeadsName token :=
  leadsName_of_mem_tokens (fun _ => leadsName_of_mem_names hpath) htoken

/-- The first token is the first name, perhaps in another case. -/
theorem exists_tokens_cons (config : Config) (name : String) (names : List String)
    (document : Option Json) : ∃ key rest, config.tokens (name :: names) document = key :: rest ∧
      Text.sameFolded key name = true := by
  rw [tokens]
  split
  · rename_i key child hmember
    obtain ⟨members, -, hmember⟩ := Option.bind_eq_some_iff.1 hmember
    exact ⟨key, _, rfl, (member?_eq_some hmember).1⟩
  · exact ⟨name, _, rfl, Text.sameFolded_refl name⟩

/-- Where a path leads depends on the members of its first name only. -/
theorem tokens_congr {left right : List (String × Json)} {name : String}
    (h : config.member? left name = config.member? right name) (names : List String) :
    config.tokens (name :: names) (some (.obj left)) =
      config.tokens (name :: names) (some (.obj right)) := by
  simp only [tokens, Option.bind_some, Json.members?, h]

theorem tokens_ne_nil {names : List String} (h : names ≠ []) (document : Option Json) :
    config.tokens names document ≠ [] := by
  cases names with
  | nil => exact absurd rfl h
  | cons name names =>
    rw [tokens]
    split
    · exact List.cons_ne_nil _ _
    · exact List.cons_ne_nil _ _

/-- The pointer of some names is not blank. -/
theorem tokens_ne_blank {names : List String} (hnames : ∀ name ∈ names, LeadsName name)
    (hne : names ≠ []) (document : Option Json) : config.tokens names document ≠ [""] := by
  have htokens : config.tokens names document ≠ [] := tokens_ne_nil hne document
  obtain ⟨token, htoken⟩ := List.exists_mem_of_ne_nil _ htokens
  exact Pointer.ne_blank_of_leadsName (leadsName_of_mem_tokens hnames htoken) htoken

/-- A path without a schema leads to some member. -/
theorem pointer_ne_nil {text : String} {path : AttributePath}
    (hpath : AttributePath.parse text = .ok path) (hschema : path.schema = none) (document : Json) :
    config.pointer document path ≠ [] := by
  refine tokens_ne_nil (fun hnames => ?_) _
  exact segments_ne_nil_of_parse hpath hschema (List.append_eq_nil_iff.1 hnames).2

end Config

/-- Tokens that start like names lead through members alone. -/
theorem Pointer.lookup_eq_reach {tokens : List String} (h : ∀ token ∈ tokens, LeadsName token)
    (document : Json) : lookup tokens document = document.reach tokens := by
  induction tokens generalizing document with
  | nil => rfl
  | cons token tokens ih =>
    have hrest := fun token htoken => h token (List.mem_cons_of_mem _ htoken)
    cases document with
    | obj members =>
      have hbelow : lookup tokens = Json.reach tokens := funext fun child => ih hrest child
      rw [lookup, Json.reach, hbelow]
    | arr items =>
      rw [lookup, index?_of_leadsName (h token List.mem_cons_self)]
      rfl
    | _ => rfl

end Scim
