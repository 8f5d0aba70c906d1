import Mathlib.Data.List.Basic
import Scim.Filter.Evaluation
import Scim.Proofs.Attribute.Walk

/-!
Paths inside groupings. Resolving a path opens the arrays in front of every name and those at the end.
As long as no array is an element of another one, it makes no difference when the values of a parent
are opened: a path under the parent names what the path names in these values, in their order. A test
of values inside a grouping therefore comes out as it does for the path under the parent.
-/
namespace Scim

/-- No array, at any depth, is an element of another one. -/
inductive Json.Flat : Json → Prop
  | null : Flat .null
  | bool (value : Bool) : Flat (.bool value)
  | num (spelling : String) : Flat (.num spelling)
  | str (text : String) : Flat (.str text)
  | arr {items : List Json} (harrays : ∀ item ∈ items, item.isArray = false)
      (hitems : ∀ item ∈ items, Flat item) : Flat (.arr items)
  | obj {members : List (String × Json)} (hmembers : ∀ member ∈ members, Flat member.2) :
      Flat (.obj members)

namespace Config

variable {config : Config} {document node child : Json} {nodes : List Json} {name : String}
  {path : AttributePath}

theorem flat_of_mem_elements (h : document.Flat) (hnode : node ∈ document.elements) : node.Flat := by
  cases h with
  | arr _ hitems => exact hitems node hnode
  | obj hmembers =>
    obtain rfl := List.mem_singleton.1 hnode
    exact .obj hmembers
  | _ =>
    obtain rfl := List.mem_singleton.1 hnode
    constructor

/-- Opening a value once opens it for good. -/
theorem not_isArray_of_mem_elements (h : document.Flat) (hnode : node ∈ document.elements) :
    node.isArray = false := by
  cases h with
  | arr harrays _ => exact harrays node hnode
  | _ =>
    obtain rfl := List.mem_singleton.1 hnode
    rfl

/-- Opening twice is opening once where no array is an element of another. -/
theorem elements_elements (h : document.Flat) :
    document.elements.flatMap Json.elements = document.elements := by
  have hsingle : document.elements.flatMap Json.elements =
      document.elements.flatMap fun node => [node] :=
    List.flatMap_congr fun node hnode =>
      Json.elements_of_not_isArray (not_isArray_of_mem_elements h hnode)
  rw [hsingle, List.flatMap_singleton']

theorem flat_of_child? (h : document.Flat) (hchild : config.child? document name = some child) :
    child.Flat := by
  obtain ⟨members, key, rfl, hmember⟩ := child?_eq_some_iff.1 hchild
  cases h with
  | obj hmembers => exact hmembers _ (Members.mem_of_find? (member?_eq_some hmember).2)

theorem flat_children (h : ∀ node ∈ nodes, node.Flat) :
    ∀ child ∈ config.children nodes name, child.Flat := by
  intro child hchild
  rw [children_eq] at hchild
  obtain ⟨parent, hparent, hchild⟩ := List.mem_filterMap.1 hchild
  obtain ⟨node, hnode, hparent⟩ := List.mem_flatMap.1 hparent
  exact flat_of_child? (flat_of_mem_elements (h node hnode) hparent) hchild

theorem flat_foldl_children (names : List String) (h : ∀ node ∈ nodes, node.Flat) :
    ∀ node ∈ names.foldl config.children nodes, node.Flat := by
  induction names generalizing nodes with
  | nil => exact h
  | cons name names ih => exact ih (flat_children h)

/-- A name has the same values below values that are open already. -/
theorem children_elements (h : ∀ node ∈ nodes, node.Flat) (name : String) :
    config.children (nodes.flatMap Json.elements) name = config.children nodes name := by
  have hopen : (nodes.flatMap Json.elements).flatMap Json.elements = nodes.flatMap Json.elements := by
    rw [List.flatMap_assoc]
    exact List.flatMap_congr fun node hnode => elements_elements (h node hnode)
  rw [children_eq, hopen, children_eq]

/-- The values under a name are found below each node by itself. -/
theorem children_eq_flatMap (nodes : List Json) (name : String) :
    config.children nodes name = nodes.flatMap fun node => config.children [node] name := by
  simp only [children_eq, List.filterMap_flatMap, List.flatMap_singleton]

/-- The values below several values are those below each of them, in order. -/
theorem foldl_children_eq_flatMap (names : List String) (nodes : List Json) :
    names.foldl config.children nodes =
      nodes.flatMap fun node => names.foldl config.children [node] := by
  induction names generalizing nodes with
  | nil => exact (List.flatMap_singleton' nodes).symm
  | cons name names ih =>
    rw [List.foldl_cons, ih, children_eq_flatMap, List.flatMap_assoc]
    refine List.flatMap_congr fun node _ => ?_
    rw [List.foldl_cons, ← ih]

theorem names_under (config : Config) (hschema : path.schema = none) (parent : AttributePath) :
    config.names (path.under parent) = config.names parent ++ config.names path := by
  simp only [names, AttributePath.under, hschema, Option.or_none, Option.toList_none,
    List.filter_nil, List.nil_append, List.append_assoc]

theorem names_ne_nil (config : Config) (hsegments : path.segments ≠ []) : config.names path ≠ [] :=
  List.append_ne_nil_of_right_ne_nil _ hsegments

/-- A path under a parent names what it names in the values of the parent. -/
theorem resolve_under (config : Config) (hdocument : document.Flat) (hschema : path.schema = none)
    (hsegments : path.segments ≠ []) (parent : AttributePath) :
    config.resolve document (path.under parent) =
      (config.resolve document parent).flatMap fun node => config.resolve node path := by
  obtain ⟨name, rest, hnames⟩ := List.exists_cons_of_ne_nil (config.names_ne_nil hsegments)
  have hflat : ∀ node ∈ (config.names parent).foldl config.children [document], node.Flat :=
    flat_foldl_children _ fun node hnode => List.mem_singleton.1 hnode ▸ hdocument
  calc config.resolve document (path.under parent)
    _ = ((name :: rest).foldl config.children
          ((config.names parent).foldl config.children [document])).flatMap Json.elements := by
      rw [resolve, config.names_under hschema, hnames, List.foldl_append]
    _ = ((name :: rest).foldl config.children (config.resolve document parent)).flatMap
          Json.elements := by
      rw [List.foldl_cons, List.foldl_cons, resolve, children_elements hflat]
    _ = (config.resolve document parent).flatMap fun node => config.resolve node path := by
      rw [foldl_children_eq_flatMap, List.flatMap_assoc]
      simp only [resolve, hnames]

end Config

/-- What a leaf may ask of the values of its path, where one value that passes is enough. -/
inductive ValueTest where
  | present
  | notNull
  | comparison (op : CompareOp) (operand : Operand)

namespace ValueTest

def leaf : ValueTest → AttributePath → Expression
  | present, path => .present path
  | notNull, path => .null path .ne
  | comparison op operand, path => .comparison path op operand

def passes : ValueTest → Json → Bool
  | present, value => !value.isNull
  | notNull, value => !value.isNull
  | comparison op operand, value => operand.holds op value

/-- A leaf holds if one of the values of its path passes the test. -/
theorem holds_leaf (config : Config) (test : ValueTest) (path : AttributePath) (document : Json) :
    config.holds (test.leaf path) document = (config.resolve document path).any test.passes := by
  cases test <;> rfl

/-- A leaf in a grouping is as legal as the leaf of the whole path, and has the same fault. -/
theorem check_grouping_leaf (test : ValueTest) (parent path : AttributePath) :
    (Expression.grouping parent (test.leaf path)).check = (test.leaf (path.under parent)).check := by
  cases test <;> rfl

end ValueTest

/-- A path under a parent names what it names in the values of the parent, one after the other, so a
test of its values comes out as it does inside a grouping. -/
theorem Config.holds_grouping_leaf {document : Json} {path : AttributePath} (config : Config)
    (hdocument : document.Flat) (hschema : path.schema = none) (hsegments : path.segments ≠ [])
    (parent : AttributePath) :
    config.resolve document (path.under parent) =
      (config.resolve document parent).flatMap (fun node => config.resolve node path) ∧
    ∀ test : ValueTest,
      config.holds (.grouping parent (test.leaf path)) document =
        config.holds (test.leaf (path.under parent)) document ∧
      config.accepts (.grouping parent (test.leaf path)) document =
        config.accepts (test.leaf (path.under parent)) document := by
  have hresolve := config.resolve_under hdocument hschema hsegments parent
  refine ⟨hresolve, ?_⟩
  intro test
  have hholds : config.holds (.grouping parent (test.leaf path)) document =
      config.holds (test.leaf (path.under parent)) document := by
    rw [test.holds_leaf, hresolve, List.any_flatMap, Config.holds]
    simp only [test.holds_leaf]
  refine ⟨hholds, ?_⟩
  rw [Config.accepts, Config.accepts, test.check_grouping_leaf, hholds]

/-- One element has a list under the name, and the other one a text under the name in another case. -/
theorem Config.holds_grouping_leaf_sample :
    ∃ document, document = .obj [("Emails", .arr [.obj [("tags", .arr [.str "a", .str "b"])],
        .obj [("Tags", .str "c")]])] ∧ document.Flat ∧
      Config.resolve {} document ⟨none, ["emails", "tags"]⟩ = [.str "a", .str "b", .str "c"] ∧
      (Config.resolve {} document ⟨none, ["emails"]⟩).flatMap
        (fun node => Config.resolve {} node ⟨none, ["tags"]⟩) = [.str "a", .str "b", .str "c"] ∧
      Config.accepts {} (.grouping ⟨none, ["emails"]⟩
        (.comparison ⟨none, ["tags"]⟩ .eq (.text "c"))) document = .ok true ∧
      Config.accepts {} (.comparison ⟨none, ["emails", "tags"]⟩ .eq (.text "c")) document =
        .ok true := by
  have hsingle : ∀ key value, value.Flat → (Json.obj [(key, value)]).Flat := by
    intro key value hvalue
    refine .obj fun member hmember => ?_
    rwa [List.mem_singleton.1 hmember]
  have htags : (Json.arr [.str "a", .str "b"]).Flat := by
    refine .arr (by simp [Json.isArray]) fun item hitem => ?_
    rcases List.mem_pair.1 hitem with rfl | rfl
    · exact .str "a"
    · exact .str "b"
  have hemails : (Json.arr [.obj [("tags", .arr [.str "a", .str "b"])],
      .obj [("Tags", .str "c")]]).Flat := by
    refine .arr (by simp [Json.isArray]) fun item hitem => ?_
    rcases List.mem_pair.1 hitem with rfl | rfl
    · exact hsingle "tags" _ htags
    · exact hsingle "Tags" _ (.str "c")
  have hschema : (⟨none, ["tags"]⟩ : AttributePath).schema = none := rfl
  have hsegments : (⟨none, ["tags"]⟩ : AttributePath).segments ≠ [] := List.cons_ne_nil _ _
  obtain ⟨hresolve, htests⟩ := Config.holds_grouping_leaf {} (hsingle "Emails" _ hemails) hschema
    hsegments ⟨none, ["emails"]⟩
  have haccepts := (htests (.comparison .eq (.text "c"))).2
  exact ⟨_, rfl, hsingle "Emails" _ hemails, rfl, hresolve.symm, rfl, haccepts.symm⟩

end Scim
