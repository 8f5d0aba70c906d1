import Mathlib.Data.List.Perm.Subperm
import Scim.Proofs.Filter.Conjunction
import Scim.Proofs.Patch.Bracketing
import Scim.Proofs.Patch.Filtering

/-!
Removals by value. An element goes if it is what one of the criteria describes. A value describes its
own copies, whatever its fields are called and hold, with two exceptions: an empty object describes
nothing, and neither does a number that is out of range. An object of scalars describes what the
filter selects that joins a test of each field by `and`.
-/
namespace Scim

open Scim.Filter Scim.Filter.Token

namespace Json

variable {members fields : List (String × Json)} {actual expected : Json} {name : String}

/-- Every member has an equal one of its name in the other object. -/
theorem sameMembers_iff : sameMembers members fields = true ↔
    ∀ member ∈ members, ∃ value, Members.find? member.1 fields = some value ∧
      member.2.same value = true := by
  induction members with
  | nil => simp [sameMembers]
  | cons member members ih =>
    rw [sameMembers, Bool.and_eq_true, ih, List.forall_mem_cons]
    refine and_congr_left fun _ => ?_
    cases Members.find? member.1 fields <;> simp

/-- Every field of an object that is the same as another one stands there under the same name. -/
theorem exists_find?_of_same (hkeys : (Members.keys members).Nodup)
    (h : (obj members).same (obj fields) = true) (hfield : (name, expected) ∈ fields) :
    ∃ actual, Members.find? name members = some actual ∧ actual.same expected = true := by
  rw [same, Bool.and_eq_true, beq_iff_eq, sameMembers_iff] at h
  obtain ⟨hlength, hmembers⟩ := h
  -- Neither object has a name that the other one lacks: there are equally many.
  have hsubset : Members.keys members ⊆ Members.keys fields := by
    intro key hkey
    obtain ⟨member, hmember, rfl⟩ := List.mem_map.1 hkey
    obtain ⟨value, hvalue, -⟩ := hmembers member hmember
    exact List.mem_map.2 ⟨_, Members.mem_of_find? hvalue, rfl⟩
  have hperm : (Members.keys members).Perm (Members.keys fields) := by
    apply (List.subperm_of_subset hkeys hsubset).perm_of_length_le
    simp [Members.keys, hlength]
  have hname : name ∈ Members.keys members := hperm.mem_iff.2 (List.mem_map_of_mem hfield)
  obtain ⟨⟨_, actual⟩, hmember, rfl⟩ := List.mem_map.1 hname
  obtain ⟨value, hvalue, hsame⟩ := hmembers _ hmember
  have hexpected := (Members.mem_iff_find? (hperm.nodup_iff.1 hkeys)).1 hfield
  obtain rfl := Option.some.inj (hvalue.symm.trans hexpected)
  exact ⟨actual, (Members.mem_iff_find? hkeys).1 hmember, hsame⟩

/-- Scalars are the same only if they are equal. -/
theorem eq_of_same (hobject : expected.isObject = false) (harray : expected.isArray = false)
    (h : actual.same expected = true) : actual = expected := by
  cases expected with
  | obj members => simp [isObject, members?] at hobject
  | arr items => simp [isArray] at harray
  | _ => cases actual <;> simp_all [same]

/-- The copies of an object are objects. -/
theorem isObject_of_same (h : actual.same (obj fields) = true) : ∃ members, actual = obj members := by
  cases actual with
  | obj members => exact ⟨members, rfl⟩
  | _ => simp [same] at h

end Json

namespace Config

variable {config : Config} {document value : Json}

theorem distinctKeys_follow {names : List String} (h : document.DistinctKeys)
    (hvalue : config.follow names document = some value) : value.DistinctKeys := by
  induction names generalizing document with
  | nil =>
    obtain rfl := Option.some.inj hvalue
    exact h
  | cons name names ih =>
    obtain ⟨child, hchild, hfollow⟩ := Option.bind_eq_some_iff.1 hvalue
    obtain ⟨members, key, rfl, hmember⟩ := child?_eq_some_iff.1 hchild
    exact ih (h.find (member?_eq_some hmember).2) hfollow

end Config

namespace Patch

variable {config : Config} {document item value actual expected : Json} {items : List Json}
  {text : String} {target : AttributePath} {members fields : List (String × Json)}
  {name : String}

/-- Criteria are converted to the removals of the elements that satisfy one of them. -/
theorem convert_criteria (config : Config) (criteria : Json)
    (hparse : PatchPath.parse text = .ok (.plain target)) (hne : config.names target ≠ [])
    (hitems : config.follow (config.names target) document = some (.arr items)) :
    convert config document [⟨.remove, some text, some criteria⟩] =
      .ok (assemble (removalSteps (config.pointer document target)
        (fun item => criteria.elements.any (satisfies config item)) items)) := by
  have haction : actionOf ⟨.remove, some text, some criteria⟩ = .ok (.remove (some criteria)) := rfl
  rw [convert_plain config document haction rfl hparse hne, hitems]
  rfl

theorem mem_assemble_removalSteps {tokens : List String} {test : Json → Bool} {index : Nat}
    (hitem : items[index]? = some item) (htest : test item = true) :
    Removal.edit ⟨tokens, index⟩ ∈ assemble (removalSteps tokens test items) := by
  rw [assemble_removalSteps]
  exact List.mem_map_of_mem (mem_staged_removalSteps.2 ⟨rfl, item, hitem, htest⟩)

theorem resolve_of_find? (config : Config) (h : Members.find? name members = some value) :
    config.resolve (.obj members) ⟨none, [name]⟩ = value.elements := by
  apply Config.resolve_of_follow
  have hchild : config.child? (.obj members) name = some value := by
    simp [Config.child?, Json.members?, config.member?_of_find? h]
  simp [Config.names, Config.follow, hchild]

/-- A field that holds a copy of the expected value has it, whichever way the two are compared. -/
theorem fieldHolds_of_same (config : Config) (hactual : Members.find? name members = some actual)
    (hsame : actual.same expected = true) : fieldHolds config members name expected = true := by
  have hresolve := resolve_of_find? config hactual
  have hmember := config.member?_of_find? hactual
  cases expected with
  | null =>
    obtain rfl := Json.eq_of_same rfl rfl hsame
    simp [fieldHolds, fieldFilter?, Config.holds, Config.hasValue, hresolve, Json.elements,
      Json.isNull]
  | bool flag =>
    obtain rfl := Json.eq_of_same rfl rfl hsame
    simp [fieldHolds, fieldFilter?, Config.holds, hresolve, Json.elements, Operand.holds,
      Operand.compare?, CompareOp.accepts]
  | str text =>
    obtain rfl := Json.eq_of_same rfl rfl hsame
    simp [fieldHolds, fieldFilter?, Config.holds, hresolve, Json.elements, Operand.holds,
      Operand.compare?, Operand.compareText, CompareOp.accepts, (Text.order_eq_iff _ _).2 rfl]
  | num spelling =>
    obtain rfl := Json.eq_of_same rfl rfl hsame
    -- A number in range is compared by its value. Any other one has no filter and is compared as a
    -- whole.
    cases hdecimal : (Json.num spelling).decimal? with
    | some number =>
      simp [fieldHolds, fieldFilter?, hdecimal, Config.holds, hresolve, Json.elements,
        Operand.holds, Operand.compare?, CompareOp.accepts, Decimal.order_self]
    | none => simp [fieldHolds, fieldFilter?, hdecimal, hmember, hsame]
  | arr items => simp [fieldHolds, fieldFilter?, hmember, hsame]
  | obj fields => simp [fieldHolds, fieldFilter?, hmember, hsame]

/-- The empty object and the numbers out of range, which not even their own copies satisfy. -/
def DescribesNothing : Json → Prop
  | .obj fields => fields = []
  | .num spelling => Decimal.read spelling = none
  | _ => False

/-- A value satisfies its own copies, unless it describes nothing. -/
theorem satisfies_of_same (config : Config) (hitem : item.DistinctKeys)
    (hvalue : ¬ DescribesNothing value) (hsame : item.same value = true) :
    satisfies config item value = true := by
  cases value with
  | obj fields =>
    obtain ⟨members, rfl⟩ := Json.isObject_of_same hsame
    have hfields : fields ≠ [] := hvalue
    simp only [satisfies, Bool.and_eq_true, Bool.not_eq_true', List.isEmpty_eq_false_iff,
      List.all_eq_true]
    refine ⟨hfields, ?_⟩
    rintro ⟨name, expected⟩ hfield
    obtain ⟨actual, hactual, hsame⟩ := Json.exists_find?_of_same hitem.keys_nodup hsame hfield
    exact fieldHolds_of_same config hactual hsame
  | num spelling =>
    obtain rfl := Json.eq_of_same rfl rfl hsame
    obtain ⟨number, hnumber⟩ := Option.ne_none_iff_exists'.1 hvalue
    simp [satisfies, Json.decimal?, hnumber, Decimal.order_self]
  | arr items => cases item <;> simp_all [satisfies, Json.same]
  | _ =>
    obtain rfl := Json.eq_of_same rfl rfl hsame
    simp [satisfies, Json.same]

theorem satisfies_eq_false (config : Config) (hvalue : DescribesNothing value) (item : Json) :
    satisfies config item value = false := by
  cases value with
  | obj fields =>
    obtain rfl : fields = [] := hvalue
    cases item <;> simp [satisfies, Json.same]
  | num spelling =>
    have hnumber : (Json.num spelling).decimal? = none := hvalue
    cases item <;> simp [satisfies, Json.same, hnumber]
  | _ => exact hvalue.elim

/-- The removal of a value from an array takes every copy of it out, the order of members aside. An
empty object takes nothing out, and neither does a number that is out of range. -/
theorem mem_convert_removal_of_same (config : Config) (hdistinct : document.DistinctKeys)
    (hparse : PatchPath.parse text = .ok (.plain target)) (hne : config.names target ≠ [])
    (hitems : config.follow (config.names target) document = some (.arr items)) (value : Json) :
    ∃ edits, convert config document [⟨.remove, some text, some (.arr [value])⟩] = .ok edits ∧
      (¬ DescribesNothing value → ∀ index item, items[index]? = some item →
        item.same value = true →
          Removal.edit ⟨config.pointer document target, index⟩ ∈ edits) ∧
      (DescribesNothing value → edits = []) := by
  refine ⟨_, convert_criteria config (.arr [value]) hparse hne hitems, ?_, ?_⟩
  · intro hvalue index item hitem hsame
    apply mem_assemble_removalSteps hitem
    have hkeys := (Config.distinctKeys_follow hdistinct hitems).item (List.mem_of_getElem? hitem)
    simp [Json.elements, satisfies_of_same config hkeys hvalue hsame]
  · intro hvalue
    by_contra hedits
    have hany := assemble_removalSteps_ne_nil_iff.1 hedits
    simp [Json.elements, satisfies_eq_false config hvalue] at hany

/-- A copy with its members in another order, under names that no filter could spell, and a number
that is no decimal. -/
theorem mem_convert_removal_of_same_sample :
    ∃ document items value huge edits others,
      document = .obj [("Emails", .arr items)] ∧
      items = [.str "a", .obj [("b.c", .num "1.0"), ("not", .arr [.null])],
        .num "1e9223372036854775809"] ∧
      value = .obj [("not", .arr [.null]), ("b.c", .num "1.0")] ∧
      huge = .num "1e9223372036854775809" ∧
      document.DistinctKeys ∧ PatchPath.parse "emails" = .ok (.plain ⟨none, ["emails"]⟩) ∧
      Config.names {} ⟨none, ["emails"]⟩ ≠ [] ∧
      Config.follow {} ["emails"] document = some (.arr items) ∧
      ¬ DescribesNothing value ∧ DescribesNothing huge ∧
      convert {} document [⟨.remove, some "emails", some (.arr [value])⟩] = .ok edits ∧
      ⟨.remove, "/Emails/1", none⟩ ∈ edits ∧
      convert {} document [⟨.remove, some "emails", some (.arr [huge])⟩] = .ok others ∧
      others = [] := by
  have hdistinct : (Json.obj [("Emails", .arr [.str "a",
      .obj [("b.c", .num "1.0"), ("not", .arr [.null])],
      .num "1e9223372036854775809"])]).DistinctKeys := by
    refine .single "Emails" (.arr ?_)
    simp only [List.forall_mem_cons, List.not_mem_nil, IsEmpty.forall_iff, implies_true, and_true]
    refine ⟨.str "a", .obj (by decide) ?_, .num _⟩
    simp only [List.forall_mem_cons, List.not_mem_nil, IsEmpty.forall_iff, implies_true, and_true]
    refine ⟨.num "1.0", .arr ?_⟩
    simpa using .null
  have hparse : PatchPath.parse "emails" = .ok (.plain ⟨none, ["emails"]⟩) := rfl
  have hfollow : Config.follow {} ["emails"] (.obj [("Emails", .arr [.str "a",
      .obj [("b.c", .num "1.0"), ("not", .arr [.null])],
      .num "1e9223372036854775809"])]) = some (.arr [.str "a",
      .obj [("b.c", .num "1.0"), ("not", .arr [.null])],
      .num "1e9223372036854775809"]) := rfl
  have hvalue : ¬ DescribesNothing (.obj [("not", .arr [.null]), ("b.c", .num "1.0")]) :=
    List.cons_ne_nil _ _
  have hhuge : DescribesNothing (.num "1e9223372036854775809") := rfl
  obtain ⟨edits, hconvert, hcopies, -⟩ := mem_convert_removal_of_same {} hdistinct hparse
    (List.cons_ne_nil _ _) hfollow (.obj [("not", .arr [.null]), ("b.c", .num "1.0")])
  obtain ⟨others, hothers, -, hnone⟩ := mem_convert_removal_of_same {} hdistinct hparse
    (List.cons_ne_nil _ _) hfollow (.num "1e9223372036854775809")
  exact ⟨_, _, _, _, edits, others, rfl, rfl, rfl, rfl, hdistinct, hparse, List.cons_ne_nil _ _,
    hfollow, hvalue, hhuge, hconvert, hcopies hvalue 1 _ rfl rfl, hothers, hnone hhuge⟩

/-- A scalar as filters spell it. A number may have any spelling, and a text that spells a timestamp
would be read as a date. -/
inductive Literal : Json → String → Prop
  | null : Literal .null "null"
  | bool (flag : Bool) : Literal (.bool flag) (toString flag)
  | num {spelling literal : String} {value other : Decimal}
      (hvalue : Decimal.read spelling = some value) (hliteral : Decimal.read literal = some other)
      (horder : value.order other = .eq) : Literal (.num spelling) literal
  | str {text : String} (hline : '\n' ∉ text.toList) (hdate : Timestamp.read .strict text = none) :
      Literal (.str text) (Text.quoted text)

inductive SpellsField : String × Json → String → Prop
  | test {name literal : String} {value : Json} (hname : AttributePath.isName name.toList = true)
      (hnot : name ≠ "not") (hliteral : Literal value literal) :
      SpellsField (name, value) (name ++ " eq " ++ literal)

theorem line_not_mem_of_isWord {cs : List Char} (h : IsWord cs) : '\n' ∉ cs :=
  fun hline => absurd (h.2 _ hline) (by decide)

theorem line_not_mem_quoted (hline : '\n' ∉ text.toList) : '\n' ∉ (Text.quoted text).toList := by
  simp only [Text.toList_quoted, Text.backslashed, List.mem_append, List.mem_cons, List.mem_flatMap,
    List.not_mem_nil, or_false, not_or, not_exists, not_and]
  refine ⟨⟨by decide, ?_⟩, by decide⟩
  intro c hc hmem
  have hchar : '\n' = c := by split at hmem <;> simpa using hmem
  exact hline (hchar ▸ hc)

/-- The literal of a scalar is read at the place of a value, and the test that it completes agrees
with the filter that the field stands for. -/
theorem Literal.exists_valued {literal : String} (h : Literal value literal) (name : String) :
    ∃ filter lexeme e, fieldFilter? name value = some filter ∧ filter.agrees e = true ∧
      e.check = .ok () ∧ Valued ⟨none, [name]⟩ .eq lexeme e ∧ Scans literal.toList [lexeme] ∧
      '\n' ∉ literal.toList := by
  cases h with
  | null =>
    have hscans : Scans "null".toList [.word "null"] := .word (isWord_of_all rfl rfl)
    exact ⟨_, _, _, rfl, by simp [Expression.agrees], rfl, .null, hscans, by decide⟩
  | bool flag =>
    cases flag with
    | true =>
      have hscans : Scans "true".toList [.word "true"] := .word (isWord_of_all rfl rfl)
      exact ⟨_, _, _, rfl, by simp [Expression.agrees, Operand.agrees], rfl, .true, hscans, by decide⟩
    | false =>
      have hscans : Scans "false".toList [.word "false"] := .word (isWord_of_all rfl rfl)
      exact ⟨_, _, _, rfl, by simp [Expression.agrees, Operand.agrees], rfl, .false, hscans, by decide⟩
  | @num spelling _ number other hvalue hliteral horder =>
    obtain ⟨numeral, hnumeral, hother⟩ := Option.bind_eq_some_iff.1 hliteral
    have hfilter : fieldFilter? name (.num spelling) =
        some (.comparison ⟨none, [name]⟩ .eq (.number number)) := by
      simp [fieldFilter?, Json.decimal?, hvalue]
    have hword := Decimal.isWord_of_read hliteral
    exact ⟨_, _, _, hfilter, by simp [Expression.agrees, Operand.agrees, horder], rfl,
      .number (Numeral.spelled_of_read hnumeral) hother, .word hword, line_not_mem_of_isWord hword⟩
  | @str text hline hdate =>
    have hvalued : Valued ⟨none, [name]⟩ .eq (.quoted text)
        (.comparison ⟨none, [name]⟩ .eq (Operand.ofLiteral text)) := .quoted text
    have hoperand : Operand.ofLiteral text = .text text := by simp only [Operand.ofLiteral, hdate]
    rw [hoperand] at hvalued
    exact ⟨_, _, _, rfl, by simp [Expression.agrees, Operand.agrees], rfl, hvalued, .quoted text,
      line_not_mem_quoted hline⟩

/-- The text of a test is read as a term that is true of an object if the object has the field. -/
theorem SpellsField.exists_term {field : String × Json} (h : SpellsField field text) :
    ∃ e, SpellsTerm text e ∧ e.check = .ok () ∧ '\n' ∉ text.toList ∧
      ∀ config members, Config.holds config e (.obj members) =
        fieldHolds config members field.1 field.2 := by
  obtain @⟨name, literal, value, hname, hnot, hliteral⟩ := h
  obtain ⟨filter, lexeme, e, hfilter, hagrees, hcheck, hvalued, hscans, hline⟩ :=
    hliteral.exists_valued name
  have hword := AttributePath.isWord_of_isName hname
  have htext : name ++ " eq " ++ literal =
      name ++ " " ++ CompareOp.eq.keyword ++ " " ++ literal := by
    have heq : " eq " = " " ++ CompareOp.eq.keyword ++ " " := rfl
    rw [heq]
    simp only [String.append_assoc]
  have hterm : Term [.word name, .word CompareOp.eq.keyword, lexeme] e :=
    .comparison ⟨hnot, AttributePath.parse_of_isName hname⟩ (by decide) hvalued
  refine ⟨e, ⟨_, ?_, hterm⟩, hcheck, ?_, ?_⟩
  · rw [htext]
    exact (Scans.word hword).around (CompareOp.isWord_keyword .eq) hscans
  · simp [line_not_mem_of_isWord hword, hline]
  · intro config members
    simp only [fieldHolds, hfilter, config.holds_of_agrees hagrees]

/-- Fields spelled as tests are legal terms that ask what the fields ask. -/
theorem exists_terms {tests : List String} (h : List.Forall₂ SpellsField fields tests) :
    ∃ terms, List.Forall₂ SpellsTerm tests terms ∧ (∀ e ∈ terms, e.check = .ok ()) ∧
      '\n' ∉ (" and ".intercalate tests).toList ∧
      ∀ config members, (terms.all fun e => Config.holds config e (.obj members)) =
        fields.all fun field => fieldHolds config members field.1 field.2 := by
  induction h with
  | nil => exact ⟨[], .nil, by simp, by simp, fun _ _ => rfl⟩
  | @cons field test fields tests hfield hfields ih =>
    obtain ⟨terms, hterms, hchecks, hlines, hall⟩ := ih
    obtain ⟨e, hterm, hcheck, hline, hholds⟩ := hfield.exists_term
    refine ⟨e :: terms, .cons hterm hterms, List.forall_mem_cons.2 ⟨hcheck, hchecks⟩, ?_, ?_⟩
    · cases tests with
      | nil => simpa using hline
      | cons next tests =>
        rw [String.intercalate_cons_cons, String.toList_append, String.toList_append]
        simp only [List.mem_append, not_or]
        exact ⟨⟨hline, by decide⟩, hlines⟩
    · intro config members
      simp only [List.all_cons, hholds, hall]

theorem removalSteps_congr {tokens : List String} {left right : Json → Bool}
    (h : ∀ item ∈ items, left item = right item) :
    removalSteps tokens left items = removalSteps tokens right items := by
  have hfilter : items.zipIdx.filter (fun element => left element.1) =
      items.zipIdx.filter fun element => right element.1 := by
    apply List.filter_congr
    intro element helement
    exact h element.1 (List.fst_mem_of_mem_zipIdx helement)
  have hindices : indicesWhere left items = indicesWhere right items :=
    congrArg (List.map Prod.snd) hfilter
  rw [removalSteps, hindices]
  rfl

/-- The removal of what a criterion describes is the removal of what the filter selects that tests
its fields one after the other. -/
theorem exists_convert_criterion (config : Config)
    (hparse : PatchPath.parse text = .ok (.plain target)) (hne : config.names target ≠ [])
    (hitems : config.follow (config.names target) document = some (.arr items))
    (hobjects : ∀ item ∈ items, item.isObject = true) (hfields : fields ≠ [])
    {tests : List String} (htests : List.Forall₂ SpellsField fields tests) :
    ∃ edits,
      convert config document [⟨.remove, some text, some (.obj fields)⟩] = .ok edits ∧
      convert config document
        [⟨.remove, some (PatchPath.bracketed text (" and ".intercalate tests) none), none⟩] =
          .ok edits := by
  obtain ⟨terms, hterms, hchecks, hline, hall⟩ := exists_terms htests
  cases hterms with
  | nil =>
    cases htests
    exact absurd rfl hfields
  | @cons test first tests rest hfirst hrest =>
    obtain ⟨hunbracketed, htarget⟩ := PatchPath.unbracketed_of_parse hparse
    have hspelled : ValuePath.Spelled ⟨target, conjunction first rest, none⟩ text
        (" and ".intercalate (test :: tests)) none :=
      ⟨hunbracketed, htarget, parse_conjunction hfirst hrest, .none⟩
    have hpath := PatchPath.parse_bracketed hspelled hline
    have hcheck := check_conjunction (hchecks first List.mem_cons_self)
      fun e he => hchecks e (List.mem_cons_of_mem _ he)
    have haction : actionOf ⟨.remove, some (PatchPath.bracketed text
        (" and ".intercalate (test :: tests)) none), none⟩ = .ok (.remove none) := rfl
    have hconvert := convert_filtered config document haction rfl hpath hcheck rfl
    rw [hitems, flatMap_selected_arr] at hconvert
    refine ⟨_, convert_criteria config (.obj fields) hparse hne hitems, hconvert.trans ?_⟩
    apply congrArg (Except.ok ∘ assemble)
    apply removalSteps_congr
    intro item hitem
    obtain ⟨members, rfl⟩ := Json.isObject_eq_true (hobjects item hitem)
    have hholds := (holds_conjunction config first rest (.obj members)).trans (hall config members)
    simp [Json.elements, satisfies, hfields, hholds]

/-- One of three objects is removed, by a number in another spelling, a text with a quote and a
bracket, and a field that it does not have. -/
theorem exists_convert_criterion_sample :
    ∃ document items fields tests edits,
      document = .obj [("Emails", .arr items)] ∧
      items = [.obj [("n", .num "1")],
        .obj [("N", .arr [.num "7", .num "10"]), ("t", .str "\"]")], .obj []] ∧
      fields = [("n", .num "1.0e1"), ("t", .str "\"]"), ("x", .null)] ∧
      tests = ["n eq 10", "t eq \"\\\"]\"", "x eq null"] ∧
      PatchPath.parse "emails" = .ok (.plain ⟨none, ["emails"]⟩) ∧
      Config.names {} ⟨none, ["emails"]⟩ ≠ [] ∧
      Config.follow {} ["emails"] document = some (.arr items) ∧
      (∀ item ∈ items, item.isObject = true) ∧ fields ≠ [] ∧
      List.Forall₂ SpellsField fields tests ∧
      convert {} document [⟨.remove, some "emails", some (.obj fields)⟩] = .ok edits ∧
      convert {} document [⟨.remove,
        some "emails[n eq 10 and t eq \"\\\"]\" and x eq null]", none⟩] = .ok edits ∧
      edits = [⟨.remove, "/Emails/1", none⟩] := by
  have hparse : PatchPath.parse "emails" = .ok (.plain ⟨none, ["emails"]⟩) := rfl
  have hfollow : Config.follow {} ["emails"] (.obj [("Emails", .arr [.obj [("n", .num "1")],
      .obj [("N", .arr [.num "7", .num "10"]), ("t", .str "\"]")], .obj []])]) =
      some (.arr [.obj [("n", .num "1")],
        .obj [("N", .arr [.num "7", .num "10"]), ("t", .str "\"]")], .obj []]) := rfl
  have hobjects : ∀ item ∈ [.obj [("n", .num "1")],
      .obj [("N", .arr [.num "7", .num "10"]), ("t", .str "\"]")], .obj []],
      Json.isObject item = true := by
    simp [Json.isObject, Json.members?]
  have hnumber : Literal (.num "1.0e1") "10" :=
    .num (rfl : Decimal.read "1.0e1" = some ⟨10, 0⟩) (rfl : Decimal.read "10" = some ⟨10, 0⟩) rfl
  have htext : Literal (.str "\"]") (Text.quoted "\"]") := .str (by decide) rfl
  have htests : List.Forall₂ SpellsField
      [("n", .num "1.0e1"), ("t", .str "\"]"), ("x", .null)]
      ["n eq 10", "t eq \"\\\"]\"", "x eq null"] :=
    .cons (.test rfl (by decide) hnumber) (.cons (.test rfl (by decide) htext)
      (.cons (.test rfl (by decide) .null) .nil))
  obtain ⟨edits, hcriterion, hfilter⟩ := exists_convert_criterion {} hparse (List.cons_ne_nil _ _)
    hfollow hobjects (List.cons_ne_nil _ _) htests
  have hedits : edits = [⟨.remove, "/Emails/1", none⟩] :=
    Except.ok.inj (hcriterion.symm.trans rfl)
  exact ⟨_, _, _, _, edits, rfl, rfl, rfl, rfl, hparse, List.cons_ne_nil _ _, hfollow, hobjects,
    List.cons_ne_nil _ _, htests, hcriterion, hfilter, hedits⟩

end Patch

end Scim
