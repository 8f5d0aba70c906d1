import Mathlib.Data.List.Pairwise
import Scim.Filter.Evaluation
import Scim.Proofs.Attribute.Walk
import Scim.Proofs.Json.Reordering
import Scim.Proofs.Result

/-!
Filters see neither the case of names nor the order of members. Where names are looked up without
regard to case, and no object of a document has two names that are the same but for case, an
expression answers alike when its names are written in another case and the document's members stand
in another order.
-/
namespace Scim

/-- The same path with its schema and its names in another case. -/
structure AttributePath.Recased (path other : AttributePath) : Prop where
  schema : Option.Rel (fun name other => Text.sameFolded name other = true) path.schema other.schema
  segments : List.Forall₂ (fun name other => Text.sameFolded name other = true)
    path.segments other.segments

inductive Expression.Recased : Expression → Expression → Prop
  | present {path other : AttributePath} (hpath : path.Recased other) :
      Recased (.present path) (.present other)
  | null {path other : AttributePath} (hpath : path.Recased other) (op : CompareOp) :
      Recased (.null path op) (.null other op)
  | comparison {path other : AttributePath} (hpath : path.Recased other) (op : CompareOp)
      (value : Operand) : Recased (.comparison path op value) (.comparison other op value)
  | grouping {parent other : AttributePath} {filter filter' : Expression}
      (hparent : parent.Recased other) (hfilter : Recased filter filter') :
      Recased (.grouping parent filter) (.grouping other filter')
  | logical {left left' right right' : Expression} (op : LogicalOp) (hleft : Recased left left')
      (hright : Recased right right') : Recased (.logical op left right) (.logical op left' right')
  | negation {filter filter' : Expression} (hfilter : Recased filter filter') :
      Recased (.negation filter) (.negation filter')

open Json

namespace Config

variable {config : Config} {members : List (String × Json)} {document document' : Json}
  {name name' : String} {path path' : AttributePath}

/-- Where case tells no two members apart, members of the same name in any case are the same. -/
theorem eq_of_sameFolded (hkeys : (Members.keys members).Pairwise CaseApart)
    {member other : String × Json} (hmember : member ∈ members) (hother : other ∈ members)
    (hsame : Text.sameFolded member.1 other.1 = true) : member = other := by
  have hapart : members.Pairwise fun member other => CaseApart member.1 other.1 :=
    List.pairwise_map.1 hkeys
  have hsymm : Std.Symm fun member other : String × Json => CaseApart member.1 other.1 :=
    ⟨fun _ _ happart => happart.symm⟩
  by_contra hne
  have hfalse := hapart.forall hmember hother hne
  simp [CaseApart, hsame] at hfalse

/-- Where case tells no two members apart, the member of a name is the one with this name in any
case. -/
theorem member?_eq_some_iff (hexact : config.caseExact = false)
    (hkeys : (Members.keys members).Pairwise CaseApart) {member : String × Json} :
    config.member? members name = some member ↔
      member ∈ members ∧ Text.sameFolded member.1 name = true := by
  constructor
  · intro hfound
    obtain ⟨hsame, hfind⟩ := member?_eq_some hfound
    exact ⟨Members.mem_of_find? hfind, hsame⟩
  · rintro ⟨hmember, hsame⟩
    cases hfound : config.member? members name with
    | none =>
      rw [member?, hexact] at hfound
      have hnone := (Option.or_eq_none_iff.1 hfound).2
      exact absurd hsame (List.find?_eq_none.1 hnone member hmember)
    | some other =>
      obtain ⟨hother, hfind⟩ := member?_eq_some hfound
      have htwice := Text.sameFolded_trans hother (Text.sameFolded_symm hsame)
      exact congrArg some (eq_of_sameFolded hkeys (Members.mem_of_find? hfind) hmember htwice)

/-- The members of a name in two cases are counterparts, or there are none. -/
theorem rel_child? (hexact : config.caseExact = false)
    (hname : Text.sameFolded name name' = true) (h : Counterpart document document') :
    Option.Rel Counterpart (config.child? document name) (config.child? document' name') := by
  have hreordered := h.2
  cases hreordered with
  | @obj members moved others hmoved hkeys hvalues =>
    obtain ⟨hapart, hapart'⟩ := h.pairwise_keys
    simp only [child?, members?, Option.bind_some]
    cases hfound : config.member? members name with
    | none =>
      cases hfound' : config.member? others name' with
      | none => exact .none
      | some member =>
        obtain ⟨key, other⟩ := member
        obtain ⟨hmember, hsame⟩ := (member?_eq_some_iff hexact hapart').1 hfound'
        obtain ⟨value, hmember, -⟩ := h.exists_of_mem_other hmember
        have hsame := Text.sameFolded_trans hsame (Text.sameFolded_symm hname)
        have hsome := (member?_eq_some_iff hexact hapart).2 ⟨hmember, hsame⟩
        simp [hfound] at hsome
    | some member =>
      obtain ⟨key, value⟩ := member
      obtain ⟨hmember, hsame⟩ := (member?_eq_some_iff hexact hapart).1 hfound
      obtain ⟨other, hother, hvalue⟩ := h.exists_of_mem hmember
      have hsame := Text.sameFolded_trans hsame hname
      rw [(member?_eq_some_iff hexact hapart').2 ⟨hother, hsame⟩]
      exact .some hvalue
  | _ => exact .none

theorem isCore_eq (hname : Text.sameFolded name name' = true) :
    config.isCore name = config.isCore name' := by
  have hfolded := Text.sameFolded_iff.1 hname
  simp only [isCore, Text.sameFolded, hfolded]

theorem forall₂_names (config : Config) (hpath : path.Recased path') :
    List.Forall₂ (fun name other => Text.sameFolded name other = true)
      (config.names path) (config.names path') := by
  have hschema : List.Forall₂ (fun name other => Text.sameFolded name other = true)
      (path.schema.toList.filter fun schema => !config.isCore schema)
      (path'.schema.toList.filter fun schema => !config.isCore schema) := by
    obtain ⟨schema, segments⟩ := path
    obtain ⟨schema', segments'⟩ := path'
    cases hpath.schema with
    | none => exact .nil
    | some hname =>
      simp only [Option.toList_some, List.filter_singleton, isCore_eq hname]
      cases !config.isCore _ with
      | true => exact .cons hname .nil
      | false => exact .nil
  exact List.rel_append hschema hpath.segments

/-- The values that a path names have counterparts at their places. -/
theorem forall₂_resolve (hexact : config.caseExact = false) (hpath : path.Recased path')
    (h : Counterpart document document') :
    List.Forall₂ Counterpart (config.resolve document path) (config.resolve document' path') := by
  exact forall₂_resolve_of (fun _ _ hnode => hnode.elements)
    (fun _ _ _ _ hnode hname => rel_child? hexact hname hnode) (config.forall₂_names hpath) h

end Config

theorem any_eq_of_forall₂ {α β : Type} {R : α → β → Prop} {left : List α} {right : List β}
    {test : α → Bool} {test' : β → Bool} (h : List.Forall₂ R left right)
    (htest : ∀ a b, R a b → test a = test' b) : left.any test = right.any test' := by
  induction h with
  | nil => rfl
  | cons hab _ ih => rw [List.any_cons, List.any_cons, htest _ _ hab, ih]

variable {config : Config} {document document' : Json} {path path' : AttributePath}
  {expression expression' : Expression}

/-- Arrays and objects compare with nothing, and all other values are their own counterparts. -/
theorem Operand.holds_eq (op : CompareOp) (operand : Operand) {value other : Json}
    (h : Counterpart value other) : operand.holds op value = operand.holds op other := by
  cases h.2 with
  | arr => cases operand <;> rfl
  | obj => cases operand <;> rfl
  | _ => rfl

theorem Config.hasValue_eq (hexact : config.caseExact = false) (hpath : path.Recased path')
    (h : Counterpart document document') :
    config.hasValue document path = config.hasValue document' path' := by
  apply any_eq_of_forall₂ (forall₂_resolve hexact hpath h)
  intro value other hvalue
  rw [hvalue.isNull_eq]

/-- The case of names and the order of members do not count. -/
theorem Config.holds_eq (hexact : config.caseExact = false)
    (hexpression : expression.Recased expression') (h : Counterpart document document') :
    config.holds expression document = config.holds expression' document' := by
  induction hexpression generalizing document document' with
  | present hpath => exact hasValue_eq hexact hpath h
  | null hpath op => simp only [holds, hasValue_eq hexact hpath h]
  | comparison hpath op value =>
    apply any_eq_of_forall₂ (forall₂_resolve hexact hpath h)
    intro actual actual' hactual
    exact value.holds_eq op hactual
  | grouping hparent hfilter ih =>
    apply any_eq_of_forall₂ (forall₂_resolve hexact hparent h)
    intro node node' hnode
    exact ih hnode
  | logical op hleft hright ihLeft ihRight =>
    cases op with
    | and => simp only [holds, ihLeft h, ihRight h]
    | or => simp only [holds, ihLeft h, ihRight h]
  | negation hfilter ih => simp only [holds, ih h]

namespace Expression

/-- Whether a test is legal does not depend on its path. -/
theorem toOption_checkOperator (op : CompareOp) (type : ValueType) (path path' : AttributePath) :
    (checkOperator op type path).toOption = (checkOperator op type path').toOption := by
  simp only [checkOperator]
  split <;> rfl

/-- Whether an expression is legal does not depend on its names. -/
theorem toOption_checkWithin (h : expression.Recased expression')
    (parent parent' : Option AttributePath) :
    (expression.checkWithin parent).toOption = (expression'.checkWithin parent').toOption := by
  induction h generalizing parent parent' with
  | present hpath => rfl
  | null hpath op => exact toOption_checkOperator op .null _ _
  | comparison hpath op value => exact toOption_checkOperator op value.type _ _
  | grouping hparent hfilter ih => exact ih _ _
  | logical op hleft hright ihLeft ihRight =>
    rw [checkWithin, checkWithin, Except.toOption_bind, Except.toOption_bind]
    simp only [ihLeft parent parent', ihRight parent parent']
  | negation hfilter ih => exact ih parent parent'

end Expression

/-- Evaluating an expression and evaluating it with its names in another case against the document
with its members in another order both fail, or give the same truth. -/
theorem Config.toOption_accepts_recased (hexact : config.caseExact = false)
    (hdocument : document.CaseDistinct) (hreordered : document.Reordered document')
    (hexpression : expression.Recased expression') :
    (config.accepts expression document).toOption =
      (config.accepts expression' document').toOption := by
  have hcheck := Expression.toOption_checkWithin hexpression none none
  have hholds := holds_eq hexact hexpression ⟨hdocument, hreordered⟩
  rw [accepts, accepts, Except.toOption_bind, Except.toOption_bind, Expression.check,
    Expression.check, hcheck, hholds]

/-- Members of the document and of an element of its array change places, and a schema, an attribute
and a sub-attribute are written in another case. -/
theorem Config.toOption_accepts_recased_sample :
    ∃ document document' expression expression',
      document = .obj [("UserName", .str "bo"), ("urn:x:y", .obj [("Level", .num "3")]),
        ("emails", .arr [.obj [("type", .str "work"), ("primary", .bool true)]])] ∧
      document' = .obj [("emails", .arr [.obj [("primary", .bool true), ("type", .str "work")]]),
        ("UserName", .str "bo"), ("urn:x:y", .obj [("Level", .num "3")])] ∧
      expression = .logical .and
        (.grouping ⟨none, ["emails"]⟩ (.comparison ⟨none, ["type"]⟩ .eq (.text "work")))
        (.present ⟨some "urn:x:y", ["level"]⟩) ∧
      expression' = .logical .and
        (.grouping ⟨none, ["eMails"]⟩ (.comparison ⟨none, ["TYPE"]⟩ .eq (.text "work")))
        (.present ⟨some "URN:X:Y", ["LEVEL"]⟩) ∧
      document.CaseDistinct ∧ document.Reordered document' ∧ expression.Recased expression' ∧
      (accepts {} expression document).toOption = some true ∧
      (accepts {} expression document).toOption = (accepts {} expression' document').toOption := by
  have hdistinct : CaseDistinct (.obj [("UserName", .str "bo"),
      ("urn:x:y", .obj [("Level", .num "3")]),
      ("emails", .arr [.obj [("type", .str "work"), ("primary", .bool true)]])]) := by
    have hextension : CaseDistinct (.obj [("Level", .num "3")]) :=
      .obj (by decide) (by simpa using .num "3")
    have hemail : CaseDistinct (.obj [("type", .str "work"), ("primary", .bool true)]) :=
      .obj (by decide) (by simpa using ⟨.str "work", .bool true⟩)
    have hemails : CaseDistinct
        (.arr [.obj [("type", .str "work"), ("primary", .bool true)]]) :=
      .arr (by simpa using hemail)
    exact .obj (by decide) (by simpa using ⟨.str "bo", hextension, hemails⟩)
  have hreordered : Reordered (.obj [("UserName", .str "bo"),
      ("urn:x:y", .obj [("Level", .num "3")]),
      ("emails", .arr [.obj [("type", .str "work"), ("primary", .bool true)]])])
      (.obj [("emails", .arr [.obj [("primary", .bool true), ("type", .str "work")]]),
        ("UserName", .str "bo"), ("urn:x:y", .obj [("Level", .num "3")])]) := by
    have hextension : Reordered (.obj [("Level", .num "3")]) (.obj [("Level", .num "3")]) :=
      .obj (.refl _) rfl (.cons (.num "3") .nil)
    have hemail : Reordered (.obj [("type", .str "work"), ("primary", .bool true)])
        (.obj [("primary", .bool true), ("type", .str "work")]) :=
      .obj (.swap _ _ _) rfl (.cons (.bool true) (.cons (.str "work") .nil))
    exact .obj (.trans (.cons _ (.swap _ _ _)) (.swap _ _ _)) rfl
      (.cons (.arr (.cons hemail .nil)) (.cons (.str "bo") (.cons hextension .nil)))
  have hrecased : Expression.Recased
      (.logical .and
        (.grouping ⟨none, ["emails"]⟩ (.comparison ⟨none, ["type"]⟩ .eq (.text "work")))
        (.present ⟨some "urn:x:y", ["level"]⟩))
      (.logical .and
        (.grouping ⟨none, ["eMails"]⟩ (.comparison ⟨none, ["TYPE"]⟩ .eq (.text "work")))
        (.present ⟨some "URN:X:Y", ["LEVEL"]⟩)) :=
    .logical .and
      (.grouping ⟨.none, .cons (by decide) .nil⟩
        (.comparison ⟨.none, .cons (by decide) .nil⟩ .eq (.text "work")))
      (.present ⟨.some (by decide), .cons (by decide) .nil⟩)
  exact ⟨_, _, _, _, rfl, rfl, rfl, rfl, hdistinct, hreordered, hrecased, rfl,
    toOption_accepts_recased rfl hdistinct hreordered hrecased⟩

end Scim
