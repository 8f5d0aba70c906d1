import Scim.Filter.Evaluation
import Scim.Proofs.Attribute.Walk

/-!
What a filter reads of a document. Resolving a path looks up its first name among the members of the
document and nothing else there, so only members that answer to a first name, in any case, can change
the truth of an expression. Inside the brackets of a parent without names the document is still the
same one, and there the first names are those of the inner filter.
-/
namespace Scim.Config

variable {config : Config} {members : List (String × Json)} {keep : String → Bool} {name : String}
  {path : AttributePath} {e : Expression}

def root? (config : Config) (path : AttributePath) : Option String := (config.names path).head?

def roots (config : Config) : Expression → List String
  | .present path => (config.root? path).toList
  | .null path _ => (config.root? path).toList
  | .comparison path _ _ => (config.root? path).toList
  | .grouping parent filter =>
    match config.root? parent with
    | some name => [name]
    | none => config.roots filter
  | .logical _ left right => config.roots left ++ config.roots right
  | .negation filter => config.roots filter

/-- The members of a document that an expression names, in any case and in their order. -/
def named (config : Config) (e : Expression) (members : List (String × Json)) :
    List (String × Json) :=
  members.filter fun member => (config.roots e).any (Text.sameFolded member.1)

def Covers (keep : String → Bool) (names : List String) : Prop :=
  ∀ name ∈ names, ∀ key, Text.sameFolded key name = true → keep key = true

theorem Covers.of_subset {names others : List String} (h : Covers keep others)
    (hsubset : names ⊆ others) : Covers keep names :=
  fun name hname => h name (hsubset hname)

theorem covers_roots (config : Config) (e : Expression) :
    Covers (fun key => (config.roots e).any (Text.sameFolded key)) (config.roots e) :=
  fun name hname _ hkey => List.any_eq_true.2 ⟨name, hname, hkey⟩

/-- Leaving out members that do not answer to a name never changes the member that does. -/
theorem member?_filter_of_covers (hkeep : Covers keep [name]) (members : List (String × Json)) :
    config.member? (members.filter fun member => keep member.1) name =
      config.member? members name := by
  have hfiltered : (members.filter fun member => keep member.1).filter
        (fun member => Text.sameFolded member.1 name) =
      members.filter fun member => Text.sameFolded member.1 name := by
    rw [List.filter_filter]
    apply List.filter_congr
    intro member _
    rw [Bool.eq_iff_iff, Bool.and_eq_true]
    exact and_iff_left_of_imp (hkeep name List.mem_cons_self member.1)
  rw [← member?_filter, hfiltered, member?_filter]

theorem resolve_of_root?_eq_none (h : config.root? path = none) (members : List (String × Json)) :
    config.resolve (.obj members) path = [.obj members] := by
  rw [resolve, List.head?_eq_none_iff.1 h]
  rfl

/-- A path finds the same values when only members that it does not name are left out. -/
theorem resolve_filter (hroot : config.root? path = some name) (hkeep : Covers keep [name])
    (members : List (String × Json)) :
    config.resolve (.obj (members.filter fun member => keep member.1)) path =
      config.resolve (.obj members) path := by
  obtain ⟨names, hnames⟩ := List.head?_eq_some_iff.1 hroot
  have hchild : config.child? (.obj (members.filter fun member => keep member.1)) name =
      config.child? (.obj members) name := by
    simp only [child?, Json.members?, Option.bind_some, member?_filter_of_covers hkeep]
  rw [resolve, resolve, hnames, List.foldl_cons, List.foldl_cons, children_singleton rfl,
    children_singleton rfl, hchild]

/-- A path without names leads to the document, of which only the kind counts. -/
theorem any_resolve_filter {test : Json → Bool} (hkeep : Covers keep (config.root? path).toList)
    (htest : config.root? path = none →
      test (.obj (members.filter fun member => keep member.1)) = test (.obj members)) :
    (config.resolve (.obj (members.filter fun member => keep member.1)) path).any test =
      (config.resolve (.obj members) path).any test := by
  cases hroot : config.root? path with
  | none =>
    rw [resolve_of_root?_eq_none hroot, resolve_of_root?_eq_none hroot, List.any_cons, List.any_cons,
      htest hroot]
  | some name =>
    rw [hroot] at hkeep
    rw [resolve_filter hroot hkeep]

/-- No comparison holds of an object. -/
theorem holds_obj (op : CompareOp) (operand : Operand) (members : List (String × Json)) :
    operand.holds op (.obj members) = false := by
  cases operand <;> rfl

theorem hasValue_filter (hkeep : Covers keep (config.root? path).toList) :
    config.hasValue (.obj (members.filter fun member => keep member.1)) path =
      config.hasValue (.obj members) path :=
  any_resolve_filter hkeep fun _ => rfl

/-- Members that an expression does not name can be left out without changing its truth. -/
theorem holds_filter (hkeep : Covers keep (config.roots e)) :
    config.holds e (.obj (members.filter fun member => keep member.1)) =
      config.holds e (.obj members) := by
  induction e with
  | present path => exact hasValue_filter hkeep
  | null path op => simp only [holds, hasValue_filter hkeep]
  | comparison path op operand =>
    apply any_resolve_filter hkeep
    intro _
    rw [holds_obj, holds_obj]
  | grouping parent filter ih =>
    have hparent : Covers keep (config.root? parent).toList := by
      cases hroot : config.root? parent with
      | none => exact fun name hname => absurd hname List.not_mem_nil
      | some name => simpa only [roots, hroot, Option.toList_some] using hkeep
    apply any_resolve_filter hparent
    intro hroot
    simp only [roots, hroot] at hkeep
    exact ih hkeep
  | logical op left right ihleft ihright =>
    have hleft := ihleft (hkeep.of_subset (List.subset_append_left _ _))
    have hright := ihright (hkeep.of_subset (List.subset_append_right _ _))
    cases op with
    | and => simp only [holds, hleft, hright]
    | or => simp only [holds, hleft, hright]
  | negation filter ih => simp only [holds, ih hkeep]

theorem accepts_named (config : Config) (e : Expression) (members : List (String × Json)) :
    config.accepts e (.obj (config.named e members)) = config.accepts e (.obj members) := by
  rw [accepts, accepts, named, holds_filter (config.covers_roots e)]

/-- A filter answers alike on documents that have the members in common which it names, with the same
content and in the same order. -/
theorem accepts_of_named_eq (config : Config) (e : Expression) {members others : List (String × Json)}
    (h : config.named e members = config.named e others) :
    config.accepts e (.obj members) = config.accepts e (.obj others) := by
  rw [← config.accepts_named e members, h, config.accepts_named]

/-- A core schema as the parent, a name in two cases, and a negated test of what is not there. The
other members are in other places, gone, new or changed. -/
theorem accepts_of_named_eq_sample : ∃ e members others,
    e = .logical .and
      (.grouping ⟨some AttributePath.coreUserSchema, []⟩
        (.comparison ⟨none, ["name", "last"]⟩ .eq (.text "b")))
      (.negation (.present ⟨some "urn:x:badge", ["level"]⟩)) ∧
    members = [("id", .num "1"), ("NAME", .obj [("last", .str "a")]), ("level", .null),
      ("name", .obj [("last", .str "b")])] ∧
    others = [("NAME", .obj [("last", .str "a")]), ("urn:x", .str "c"),
      ("name", .obj [("last", .str "b")]), ("id", .num "2")] ∧
    roots {} e = ["name", "urn:x:badge"] ∧ named {} e members = named {} e others ∧
    accepts {} e (.obj members) = .ok true ∧ accepts {} e (.obj others) = .ok true := by
  have hnamed : named {} (.logical .and
      (.grouping ⟨some AttributePath.coreUserSchema, []⟩
        (.comparison ⟨none, ["name", "last"]⟩ .eq (.text "b")))
      (.negation (.present ⟨some "urn:x:badge", ["level"]⟩)))
      [("id", .num "1"), ("NAME", .obj [("last", .str "a")]), ("level", .null),
        ("name", .obj [("last", .str "b")])] =
    named {} (.logical .and
      (.grouping ⟨some AttributePath.coreUserSchema, []⟩
        (.comparison ⟨none, ["name", "last"]⟩ .eq (.text "b")))
      (.negation (.present ⟨some "urn:x:badge", ["level"]⟩)))
      [("NAME", .obj [("last", .str "a")]), ("urn:x", .str "c"),
        ("name", .obj [("last", .str "b")]), ("id", .num "2")] := by decide +kernel
  have haccepts := accepts_of_named_eq {} _ hnamed
  exact ⟨_, _, _, rfl, rfl, rfl, by decide +kernel, hnamed, rfl, haccepts ▸ rfl⟩

end Scim.Config
