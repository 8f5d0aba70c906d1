import Mathlib.Data.List.Forall2
import Scim.Proofs.Attribute.Lookup
import Scim.Proofs.Patch.Ancestry

/-!
Following the names of a path from a document through objects. Resolving a path comes to this where
no array stands on the way, and the pointer of a path leads to the same value, also when it is read
back from its text.
-/
namespace Scim

namespace Json

def isArray : Json → Bool
  | arr _ => true
  | _ => false

def isObject (value : Json) : Bool := value.members?.isSome

theorem elements_of_not_isArray {value : Json} (h : value.isArray = false) :
    value.elements = [value] := by
  cases value with
  | arr items => simp [isArray] at h
  | _ => rfl

theorem not_isArray_of_isObject {value : Json} (h : value.isObject = true) :
    value.isArray = false := by
  cases value with
  | arr items => simp [isObject, members?] at h
  | _ => rfl

theorem isObject_eq_true {value : Json} (h : value.isObject = true) :
    ∃ members, value = .obj members := by
  cases value with
  | obj members => exact ⟨members, rfl⟩
  | _ => simp [isObject, members?] at h

end Json

namespace Config

variable {config : Config} {document value : Json} {name : String} {names : List String}
  {members : List (String × Json)} {path : AttributePath}

def child? (config : Config) (document : Json) (name : String) : Option Json :=
  (document.members?.bind fun members => config.member? members name).map Prod.snd

def follow (config : Config) : List String → Json → Option Json
  | [], document => some document
  | name :: names, document => (config.child? document name).bind (config.follow names)

/-- What some names meet before the last of them has a property. -/
def OnWay (config : Config) (P : Json → Prop) (names : List String) (document : Json) : Prop :=
  ∀ before, before <+: names → before ≠ names →
    ∀ value, config.follow before document = some value → P value

theorem onWay_nil (P : Json → Prop) (document : Json) : config.OnWay P [] document := by
  intro before hbefore hne
  exact absurd (List.prefix_nil.1 hbefore) hne

theorem onWay_cons_iff {P : Json → Prop} : config.OnWay P (name :: names) document ↔ P document ∧
    ∀ child, config.child? document name = some child → config.OnWay P names child := by
  constructor
  · intro h
    refine ⟨h [] List.nil_prefix (List.cons_ne_nil name names).symm document rfl, ?_⟩
    intro child hchild before hbefore hne value hvalue
    apply h (name :: before)
    · exact (List.prefix_cons_inj name).2 hbefore
    · intro heq
      exact hne (List.cons.inj heq).2
    · rw [follow, hchild, Option.bind_some, hvalue]
  · rintro ⟨hdocument, hchild⟩ before hbefore hne value hvalue
    cases before with
    | nil =>
      obtain rfl := Option.some.inj hvalue
      exact hdocument
    | cons first before =>
      obtain ⟨rfl, hprefix⟩ := List.cons_prefix_cons.1 hbefore
      obtain ⟨child, hfirst, hvalue⟩ := Option.bind_eq_some_iff.1 hvalue
      have hrest : before ≠ names := fun heq => hne (congrArg (first :: ·) heq)
      exact hchild child hfirst before hprefix hrest value hvalue

theorem OnWay.mono {P Q : Json → Prop} (h : config.OnWay P names document)
    (himp : ∀ value, P value → Q value) : config.OnWay Q names document :=
  fun before hbefore hne value hvalue => himp value (h before hbefore hne value hvalue)

theorem child?_eq_some_iff {child : Json} : config.child? document name = some child ↔
    ∃ members key, document = .obj members ∧ config.member? members name = some (key, child) := by
  constructor
  · intro h
    obtain ⟨⟨key, _⟩, hmember, rfl⟩ := Option.map_eq_some_iff.1 h
    cases document with
    | obj members => exact ⟨members, key, rfl, hmember⟩
    | _ => simp [Json.members?] at hmember
  · rintro ⟨members, key, rfl, hmember⟩
    simp [child?, Json.members?, hmember]

/-- Only objects stand on a way that leads to a value. -/
theorem onWay_of_follow (h : config.follow names document = some value) :
    config.OnWay (·.isObject = true) names document := by
  induction names generalizing document with
  | nil => exact onWay_nil _ document
  | cons name names ih =>
    obtain ⟨child, hchild, hfollow⟩ := Option.bind_eq_some_iff.1 h
    obtain ⟨members, key, rfl, -⟩ := child?_eq_some_iff.1 hchild
    rw [onWay_cons_iff]
    refine ⟨rfl, ?_⟩
    intro other hother
    obtain rfl := Option.some.inj (hchild.symm.trans hother)
    exact ih hfollow

theorem children_eq (config : Config) (nodes : List Json) (name : String) :
    config.children nodes name =
      (nodes.flatMap Json.elements).filterMap fun parent => config.child? parent name := rfl

theorem children_singleton (h : document.isArray = false) :
    config.children [document] name = (config.child? document name).toList := by
  rw [children_eq, List.flatMap_singleton, Json.elements_of_not_isArray h, List.filterMap_cons]
  cases config.child? document name <;> rfl

theorem foldl_children_nil (names : List String) : names.foldl config.children [] = [] := by
  induction names with
  | nil => rfl
  | cons name names ih => exact ih

/-- Where no array is on the way, the values under some names are the one they lead to. -/
theorem foldl_children (h : config.OnWay (·.isArray = false) names document) :
    names.foldl config.children [document] = (config.follow names document).toList := by
  induction names generalizing document with
  | nil => rfl
  | cons name names ih =>
    obtain ⟨hdocument, hnext⟩ := onWay_cons_iff.1 h
    rw [List.foldl_cons, children_singleton hdocument, follow]
    cases hchild : config.child? document name with
    | none => exact foldl_children_nil names
    | some child => exact ih (hnext child hchild)

/-- Where no array stands on the way, a path names the value at its end, or the elements of the
array there. -/
theorem resolve_eq
    (h : config.OnWay (·.isArray = false) (config.names path) document) :
    config.resolve document path =
      (config.follow (config.names path) document).toList.flatMap Json.elements := by
  rw [resolve, foldl_children h]

/-- Where elements and children are related, so are the values that related names lead to. -/
theorem forall₂_resolve_of {R : Json → Json → Prop} {S : String → String → Prop}
    {document' : Json} {path' : AttributePath}
    (helements : ∀ node node', R node node' → List.Forall₂ R node.elements node'.elements)
    (hchild : ∀ node node' name name', R node node' → S name name' →
      Option.Rel R (config.child? node name) (config.child? node' name'))
    (hnames : List.Forall₂ S (config.names path) (config.names path')) (h : R document document') :
    List.Forall₂ R (config.resolve document path) (config.resolve document' path') := by
  have hstep : Relator.LiftFun (List.Forall₂ R) (Relator.LiftFun S (List.Forall₂ R))
      config.children config.children := by
    intro nodes nodes' hnodes name name' hname
    rw [children_eq, children_eq]
    exact List.rel_filterMap (fun node node' hnode => hchild node node' name name' hnode hname)
      (List.rel_flatMap hnodes helements)
  exact List.rel_flatMap (List.rel_foldl hstep (.cons h .nil) hnames) helements

/-- A path resolves to the elements of the value that its names lead to. -/
theorem resolve_of_follow (h : config.follow (config.names path) document = some value) :
    config.resolve document path = value.elements := by
  have hway : config.OnWay (·.isArray = false) (config.names path) document :=
    (onWay_of_follow h).mono fun _ => Json.not_isArray_of_isObject
  rw [resolve_eq hway, h]
  simp

theorem find?_eq_none_of_member? (h : config.member? members name = none) :
    Members.find? name members = none := by
  apply Members.find?_eq_none_iff.2
  intro hkey
  obtain ⟨member, hmember, hname⟩ := List.mem_map.1 hkey
  have hexact := (Option.or_eq_none_iff.1 h).1
  have hne := List.find?_eq_none.1 hexact member hmember
  simp [hname] at hne

/-- Making an empty object where there is nothing changes no token. -/
theorem tokens_getD (config : Config) (names : List String) (found : Option Json) :
    config.tokens names (some (found.getD (.obj []))) = config.tokens names found := by
  cases found with
  | some value => rfl
  | none =>
    cases names with
    | nil => rfl
    | cons name names => simp [tokens, Json.members?, member?]

theorem tokens_obj (config : Config) (name : String) (names : List String)
    (members : List (String × Json)) : config.tokens (name :: names) (some (.obj members)) =
      config.spelled members name ::
        config.tokens names (some ((config.child? (.obj members) name).getD (.obj []))) := by
  rw [tokens_getD]
  simp only [tokens, spelled, key?, child?, Option.bind_some, Json.members?]
  cases config.member? members name <;> rfl

/-- Under the spelled key stands what the name stands for. -/
theorem find?_spelled (config : Config) (members : List (String × Json)) (name : String) :
    Members.find? (config.spelled members name) members = config.child? (.obj members) name := by
  simp only [spelled, key?, child?, Json.members?, Option.bind_some]
  cases hmember : config.member? members name with
  | none => exact find?_eq_none_of_member? hmember
  | some member => exact (member?_eq_some hmember).2

/-- The tokens of a path lead where its names do. -/
theorem reach_tokens (config : Config) (names : List String) (document : Json) :
    document.reach (config.tokens names (some document)) = config.follow names document := by
  induction names generalizing document with
  | nil => rfl
  | cons name names ih =>
    cases document with
    | obj members =>
      rw [tokens_obj, Json.reach, find?_spelled, follow]
      cases config.child? (.obj members) name with
      | none => rfl
      | some child => exact ih child
    | _ => rfl

theorem reach_pointer (config : Config) (path : AttributePath) (document : Json) :
    document.reach (config.pointer document path) = config.follow (config.names path) document :=
  config.reach_tokens (config.names path) document

/-- The pointer of a path leads where the names of the path lead. -/
theorem lookup_pointer {text : String} (hpath : AttributePath.parse text = .ok path)
    (document : Json) : Pointer.lookup (config.pointer document path) document =
      config.follow (config.names path) document := by
  rw [Pointer.lookup_eq_reach fun _ => leadsName_of_mem_pointer hpath, reach_pointer]

/-- Where the pointer of a path leads to a value, the path resolves to this value, or to its elements
in order. Where it leads to nothing and no array stands on the way, the path resolves to nothing. -/
theorem resolve_eq_of_find? {text : String} (config : Config)
    (hpath : AttributePath.parse text = .ok path) (document : Json) :
    (∀ value, Pointer.find? (Pointer.text (config.pointer document path)) document = some value →
      config.resolve document path = value.elements) ∧
    (Pointer.find? (Pointer.text (config.pointer document path)) document = none →
      config.OnWay (·.isArray = false) (config.names path) document →
        config.resolve document path = []) := by
  rw [Pointer.find?_text, lookup_pointer hpath]
  constructor
  · intro value hvalue
    exact resolve_of_follow hvalue
  · intro hnone hway
    rw [resolve_eq hway, hnone]
    rfl

/-- A list in an extension, by names in other cases, and a name that ends in a scalar. -/
theorem resolve_eq_of_find?_sample :
    ∃ document path other,
      document = .obj [("urn:x:Badge", .obj [("Tags", .arr [.str "a", .null])]), ("Name", .str "b")] ∧
      AttributePath.parse "URN:X:badge:tags" = .ok path ∧
      Pointer.find? (Pointer.text (Config.pointer {} document path)) document =
        some (.arr [.str "a", .null]) ∧
      Config.resolve {} document path = [.str "a", .null] ∧
      AttributePath.parse "name.first" = .ok other ∧
      Pointer.find? (Pointer.text (Config.pointer {} document other)) document = none ∧
      Config.OnWay {} (·.isArray = false) ["name", "first"] document ∧
      Config.resolve {} document other = [] := by
  have hpath : AttributePath.parse "URN:X:badge:tags" = .ok ⟨some "URN:X:badge", ["tags"]⟩ := rfl
  have hother : AttributePath.parse "name.first" = .ok ⟨none, ["name", "first"]⟩ := rfl
  have hfirst : Config.child? {} (.obj [("urn:x:Badge", .obj [("Tags", .arr [.str "a", .null])]),
      ("Name", .str "b")]) "name" = some (.str "b") := rfl
  have hway : Config.OnWay {} (·.isArray = false) ["name", "first"]
      (.obj [("urn:x:Badge", .obj [("Tags", .arr [.str "a", .null])]), ("Name", .str "b")]) := by
    rw [onWay_cons_iff, hfirst]
    refine ⟨rfl, ?_⟩
    rintro child hchild
    obtain rfl := Option.some.inj hchild
    rw [onWay_cons_iff]
    exact ⟨rfl, by simp [child?, Json.members?]⟩
  have hfind : Pointer.find? (Pointer.text (Config.pointer {}
      (.obj [("urn:x:Badge", .obj [("Tags", .arr [.str "a", .null])]), ("Name", .str "b")])
      ⟨some "URN:X:badge", ["tags"]⟩))
      (.obj [("urn:x:Badge", .obj [("Tags", .arr [.str "a", .null])]), ("Name", .str "b")]) =
    some (.arr [.str "a", .null]) := rfl
  have hvalues := (resolve_eq_of_find? {} hpath _).1 _ hfind
  have hnone := (resolve_eq_of_find? {} hother _).2 rfl hway
  exact ⟨_, _, _, rfl, hpath, hfind, hvalues, hother, rfl, hway, hnone⟩

end Config

end Scim
