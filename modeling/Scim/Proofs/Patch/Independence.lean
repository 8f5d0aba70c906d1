import Scim.Proofs.Patch.Locality
import Scim.Proofs.Patch.Removal

/-!
Operations on different members of a document do not meet. Main statement: a batch in two parts whose
paths have no first name in common can be converted and applied exactly if the parts can be one after
the other, and then both ways leave the same members.
-/
namespace Scim

open Patch AttributePath

/-- An operation whose path leads to some name leads to a member. -/
theorem Operation.namesMember_of_rootName? {config : Config} {operation : Operation} {name : String}
    (h : operation.rootName? config = some name) : operation.NamesMember config := by
  unfold Operation.rootName? at h
  split at h
  · rename_i path hmap
    obtain ⟨text, hpath, hparse⟩ := Option.map_eq_some_iff.1 hmap
    refine ⟨text, hpath, PatchPath.ne_empty_of_parse hparse, fun path' hparse' hnil => ?_⟩
    obtain rfl := Except.ok.inj (hparse.symm.trans hparse')
    simp [hnil] at h
  · simp at h

namespace Patch

def patched (config : Config) (document : Json) (operations : List Operation) :
    Except PatchError Json :=
  convert config document operations >>= fun edits => Edit.applyAll edits document

variable {config : Config} {document result : Json} {operations others : List Operation}
  {steps first second : List Step} {members : List (String × Json)} {key name : String}

theorem patched_eq (config : Config) (document : Json) (operations : List Operation) :
    patched config document operations = batchSteps config document operations >>= fun steps =>
      Edit.applyAll (assemble steps) document := by
  rw [patched, convert]
  cases batchSteps config document operations <;> rfl

def Step.Rooted (step : Step) : Prop := ∃ key rest, step.base = key :: rest ∧ LeadsName key

def Step.key? (step : Step) : Option String := step.base.head?

theorem key?_of_rooted {op : PatchOp} {tokens : List String} {value : Option Json}
    (h : Step.Rooted (.edit op tokens value)) :
    Edit.key? ⟨op, Pointer.text tokens, value⟩ = Step.key? (.edit op tokens value) := by
  obtain ⟨key, rest, hbase, hkey⟩ := h
  obtain rfl : tokens = key :: rest := hbase
  have hne : key :: rest ≠ [""] := Pointer.ne_blank_of_leadsName hkey List.mem_cons_self
  rw [Edit.key?, Edit.tokens, Pointer.parse_text hne]
  rfl

theorem Removal.key?_of_rooted {removal : Removal} (h : Step.Rooted (.stage removal)) :
    removal.edit.key? = Step.key? (.stage removal) := by
  obtain ⟨key, rest, hbase, -⟩ := h
  have harray : removal.array = key :: rest := hbase
  rw [Edit.key?, Edit.tokens, removal.parse_edit, Removal.place, Step.key?, Step.base, harray]
  rfl

theorem below_immediate (hrooted : ∀ step ∈ steps, step.Rooted) (key : String) :
    Edit.below key (immediate steps) =
      immediate (steps.filter fun step => step.key? == some key) := by
  induction steps with
  | nil => rfl
  | cons step steps ih =>
    have hrest := ih fun next hnext => hrooted next (List.mem_cons_of_mem step hnext)
    have hstep := hrooted step List.mem_cons_self
    cases step with
    | edit op tokens value =>
      have hkey := key?_of_rooted hstep
      have himmediate : ∀ steps, immediate (.edit op tokens value :: steps) =
          ⟨op, Pointer.text tokens, value⟩ :: immediate steps := fun _ => rfl
      rw [Edit.below] at hrest ⊢
      rw [himmediate, List.filter_cons, List.filter_cons, hkey, hrest]
      split <;> rfl
    | stage removal =>
      have himmediate : ∀ steps, immediate (.stage removal :: steps) = immediate steps :=
        fun _ => rfl
      rw [himmediate, List.filter_cons, hrest]
      split <;> rfl

/-- An array is superseded by steps below its own member only. -/
theorem any_supersedes_filter {removal : Removal} (hrooted : ∀ step ∈ steps, step.Rooted)
    (hkey : Step.key? (.stage removal) = some key) :
    (steps.filter fun step => step.key? == some key).any (supersedes removal.array) =
      steps.any (supersedes removal.array) := by
  have hsupersedes : ∀ step ∈ steps, supersedes removal.array step = true →
      step.key? = some key := by
    intro step hstep hsuperseded
    obtain ⟨head, rest, hbase, -⟩ := hrooted step hstep
    have hprefix : step.base <+: removal.array := by
      cases step with
      | edit op tokens value =>
        cases op with
        | add => simp [supersedes] at hsuperseded
        | remove => exact List.isPrefixOf_iff_prefix.1 hsuperseded
        | replace => exact List.isPrefixOf_iff_prefix.1 hsuperseded
      | stage other => simp [supersedes] at hsuperseded
    obtain ⟨inner, hinner⟩ := hprefix
    rw [hbase, List.cons_append] at hinner
    rw [Step.key?, Step.base, ← hinner] at hkey
    rw [Step.key?, hbase, ← hkey]
    rfl
  rw [Bool.eq_iff_iff, List.any_eq_true, List.any_eq_true]
  refine exists_congr fun step => ?_
  rw [List.mem_filter]
  constructor
  · rintro ⟨⟨hstep, -⟩, hsuperseded⟩
    exact ⟨hstep, hsuperseded⟩
  · rintro ⟨hstep, hsuperseded⟩
    exact ⟨⟨hstep, beq_iff_eq.2 (hsupersedes step hstep hsuperseded)⟩, hsuperseded⟩

/-- Staging below a key depends on the steps there alone. -/
theorem below_staged (hrooted : ∀ step ∈ steps, step.Rooted) (key : String) :
    Edit.below key ((stagedWhere false steps).map Removal.edit) =
      (stagedWhere false (steps.filter fun step => step.key? == some key)).map Removal.edit := by
  rw [Edit.below, List.filter_map]
  refine congrArg (List.map Removal.edit) (Removal.Ordered.eq_of_mem_iff
    ((ordered_stagedWhere false steps).filter _) (ordered_stagedWhere false _) fun removal => ?_)
  simp only [stagedWhere, List.mem_filter, mem_staged, Function.comp_apply, beq_iff_eq]
  constructor
  · rintro ⟨⟨hstage, hsuperseded⟩, hkey⟩
    rw [Removal.key?_of_rooted (hrooted _ hstage)] at hkey
    exact ⟨⟨hstage, hkey⟩, (any_supersedes_filter hrooted hkey).trans hsuperseded⟩
  · rintro ⟨⟨hstage, hkey⟩, hsuperseded⟩
    rw [Removal.key?_of_rooted (hrooted _ hstage)]
    exact ⟨⟨hstage, (any_supersedes_filter hrooted hkey).symm.trans hsuperseded⟩, hkey⟩

theorem exists_key?_of_mem_assemble (hrooted : ∀ step ∈ steps, step.Rooted) {edit : Edit}
    (h : edit ∈ assemble steps) : ∃ key, edit.key? = some key := by
  have hkey : ∀ step : Step, step.Rooted → ∃ key, step.key? = some key := by
    rintro step ⟨key, rest, hbase, -⟩
    exact ⟨key, by rw [Step.key?, hbase, List.head?_cons]⟩
  rcases List.mem_append.1 h with h | h
  · obtain ⟨tokens, hstep, hpointer⟩ := mem_immediate h
    have hstepKey := key?_of_rooted (hrooted _ hstep)
    rw [← hpointer] at hstepKey
    exact hstepKey.symm ▸ hkey _ (hrooted _ hstep)
  · obtain ⟨removal, hremoval, rfl⟩ := List.mem_map.1 h
    have hstage := hrooted _ (mem_staged.1 (List.mem_filter.1 hremoval).1)
    exact (Removal.key?_of_rooted hstage).symm ▸ hkey _ hstage

/-- The edits of a batch below a member are those of its steps below this member. -/
theorem below_assemble (hrooted : ∀ step ∈ steps, step.Rooted) (key : String) :
    Edit.below key (assemble steps) =
      assemble (steps.filter fun step => step.key? == some key) := by
  rw [assemble, assemble, Edit.below_append, below_immediate hrooted, below_staged hrooted]

/-- Steps that share no member can be assembled on their own. -/
theorem below_assemble_append (hfirst : ∀ step ∈ first, step.Rooted)
    (hsecond : ∀ step ∈ second, step.Rooted)
    (hapart : ∀ step ∈ first, ∀ other ∈ second, step.key? ≠ other.key?) (key : String) :
    Edit.below key (assemble (first ++ second)) =
      Edit.below key (assemble first ++ assemble second) := by
  have hboth : ∀ step ∈ first ++ second, step.Rooted := fun step hstep =>
    (List.mem_append.1 hstep).elim (hfirst step) (hsecond step)
  have hnone : first.filter (fun step => step.key? == some key) = [] ∨
      second.filter (fun step => step.key? == some key) = [] := by
    by_cases hkey : ∃ other ∈ second, other.key? = some key
    · obtain ⟨other, hother, hkey⟩ := hkey
      refine .inl (List.filter_eq_nil_iff.2 fun step hstep => ?_)
      simpa [hkey] using hapart step hstep other hother
    · refine .inr (List.filter_eq_nil_iff.2 fun step hstep hstepKey => ?_)
      exact hkey ⟨step, hstep, beq_iff_eq.1 hstepKey⟩
  rw [Edit.below_append, below_assemble hboth, below_assemble hfirst, below_assemble hsecond,
    List.filter_append]
  rcases hnone with hnone | hnone
  · rw [hnone]
    rfl
  · rw [hnone, List.append_nil]
    exact (List.append_nil _).symm

/-- Steps of operations go to members of the operations' names. -/
theorem rooted_of_mem_batchSteps (hnames : ∀ operation ∈ operations, operation.NamesMember config)
    (hsteps : batchSteps config document operations = .ok steps) {step : Step} (h : step ∈ steps) :
    step.Rooted ∧ ∃ operation ∈ operations, ∃ name key, operation.rootName? config = some name ∧
      step.key? = some key ∧ Text.sameFolded key name = true := by
  obtain ⟨operation, hoperation, own, hown, h⟩ := exists_operation_of_mem hsteps h
  obtain ⟨name, key, rest, hname, hbase, hkey, hleads⟩ :=
    exists_base_cons (hnames operation hoperation) hown h
  refine ⟨⟨key, rest, hbase, hleads⟩, operation, hoperation, name, key, hname, ?_, hkey⟩
  rw [Step.key?, hbase]
  rfl

/-- No operation of one batch names a member that an operation of another batch names. -/
def NamesApart (config : Config) (operations others : List Operation) : Prop :=
  ∀ operation ∈ operations, ∀ other ∈ others, ∀ name name',
    operation.rootName? config = some name → other.rootName? config = some name' →
    Text.sameFolded name name' = false

/-- A member that no step goes to or below is left alone. -/
theorem find?_applyAll_assemble {after : List (String × Json)} (hkeys : (Members.keys members).Nodup)
    (hrooted : ∀ step ∈ steps, step.Rooted)
    (happly : Edit.applyAll (assemble steps) (.obj members) = .ok (.obj after))
    (hkey : ∀ step ∈ steps, step.key? ≠ some key) :
    Members.find? key after = Members.find? key members := by
  have hnone : steps.filter (fun step => step.key? == some key) = [] :=
    List.filter_eq_nil_iff.2 fun step hstep hstepKey => hkey step hstep (beq_iff_eq.1 hstepKey)
  have heffects := Edit.effects_of_applyAll (fun _ => exists_key?_of_mem_assemble hrooted) hkeys
    happly key
  rw [below_assemble hrooted, hnone] at heffects
  exact (Option.some.inj heffects).symm

/-- A batch leaves the members alone that have none of its names. -/
theorem agreeOn_of_applyAll {after : List (String × Json)}
    (hmembers : members.Pairwise fun member other => Text.sameFolded member.1 other.1 = false)
    (hrooted : ∀ step ∈ steps, step.Rooted)
    (happly : Edit.applyAll (assemble steps) (.obj members) = .ok (.obj after))
    (hname : ∀ step ∈ steps, ∀ key, step.key? = some key → Text.sameFolded key name = false) :
    AgreeOn config members after name := by
  have hkeys := Members.nodup_keys_of_folded hmembers
  have hfind : ∀ key, Text.sameFolded key name = true →
      Members.find? key members = Members.find? key after := by
    intro key hkey
    refine (find?_applyAll_assemble hkeys hrooted happly fun step hstep hstepKey => ?_).symm
    rw [hname step hstep key hstepKey] at hkey
    exact Bool.noConfusion hkey
  obtain ⟨_, hobj, hnodup⟩ :=
    Edit.exists_obj_of_applyAll (fun _ => exists_key?_of_mem_assemble hrooted) hkeys happly
  obtain rfl := Json.obj.inj hobj
  exact ⟨Config.member?_congr hmembers hnodup hfind, hfind⟩

theorem exists_key?_of_batchSteps (hnames : ∀ operation ∈ operations, operation.NamesMember config)
    (hsteps : batchSteps config document operations = .ok steps) :
    ∀ edit ∈ assemble steps, ∃ key, edit.key? = some key := fun _ hedit =>
  exists_key?_of_mem_assemble (fun _ hstep => (rooted_of_mem_batchSteps hnames hsteps hstep).1) hedit

section Apart

variable (hnames : ∀ operation ∈ operations, operation.NamesMember config)
  (hothers : ∀ operation ∈ others, operation.NamesMember config)
  (hapart : NamesApart config operations others)

include hnames hapart

/-- No step of the one batch goes to or below a member that the other one names. -/
theorem sameFolded_of_namesApart (hfirst : batchSteps config document operations = .ok first)
    {step : Step} (hstep : step ∈ first) (hkey : step.key? = some key) {other : Operation}
    (hother : other ∈ others) (hname : other.rootName? config = some name) :
    Text.sameFolded key name = false := by
  obtain ⟨-, operation, hoperation, name', key', hname', hkey', hfolded⟩ :=
    rooted_of_mem_batchSteps hnames hfirst hstep
  obtain rfl : key = key' := Option.some.inj (hkey.symm.trans hkey')
  exact Text.sameFolded_eq_false (hapart operation hoperation other hother name' name hname' hname)
    hfolded (Text.sameFolded_refl name)

include hothers

/-- Batches with names apart go to different members. -/
theorem key?_ne_of_namesApart (hfirst : batchSteps config document operations = .ok first)
    (hsecond : batchSteps config document others = .ok second) :
    ∀ step ∈ first, ∀ other ∈ second, step.key? ≠ other.key? := by
  intro step hstep other hother hsame
  obtain ⟨-, operation, hoperation, name, key, hname, hkey, hfolded⟩ :=
    rooted_of_mem_batchSteps hothers hsecond hother
  have hnot := sameFolded_of_namesApart hnames hapart hfirst hstep (hsame.trans hkey) hoperation hname
  rw [hfolded] at hnot
  exact Bool.noConfusion hnot

/-- Assembled together or apart, the steps of both batches make the same edits below each member. -/
theorem below_of_namesApart (hfirst : batchSteps config document operations = .ok first)
    (hsecond : batchSteps config document others = .ok second) (key : String) :
    Edit.below key (assemble (first ++ second)) =
      Edit.below key (assemble first ++ assemble second) :=
  below_assemble_append (fun _ hstep => (rooted_of_mem_batchSteps hnames hfirst hstep).1)
    (fun _ hstep => (rooted_of_mem_batchSteps hothers hsecond hstep).1)
    (key?_ne_of_namesApart hnames hothers hapart hfirst hsecond) key

variable
  (hmembers : members.Pairwise fun member other => Text.sameFolded member.1 other.1 = false)

include hmembers

/-- A batch has the same steps before and after another batch that names other members. -/
theorem batchSteps_of_namesApart (hfirst : batchSteps config (.obj members) operations = .ok first)
    (happly : Edit.applyAll (assemble first) (.obj members) = .ok document) :
    batchSteps config (.obj members) others = batchSteps config document others := by
  obtain ⟨after, rfl, -⟩ := Edit.exists_obj_of_applyAll (exists_key?_of_batchSteps hnames hfirst)
    (Members.nodup_keys_of_folded hmembers) happly
  refine batchSteps_congr fun other hother => ?_
  refine operationSteps_congr (hothers other hother) fun name hname => ?_
  exact agreeOn_of_applyAll hmembers
    (fun step hstep => (rooted_of_mem_batchSteps hnames hfirst hstep).1) happly
    fun step hstep key hkey =>
      sameFolded_of_namesApart hnames hapart hfirst hstep hkey hother hname

/-- The second batch can be converted in the document that the first one finds. -/
theorem patched_bind_eq (hfirst : batchSteps config (.obj members) operations = .ok first) :
    (patched config (.obj members) operations >>= fun middle => patched config middle others) =
      Edit.applyAll (assemble first) (.obj members) >>= fun middle =>
        batchSteps config (.obj members) others >>= fun second =>
          Edit.applyAll (assemble second) middle := by
  rw [patched_eq, hfirst]
  refine Except.bind_congr fun middle happly => ?_
  rw [patched_eq, batchSteps_of_namesApart hnames hothers hapart hmembers hfirst happly]

/-- Two batches that name different members can be made as one exactly if they can be made one after
the other, and then both ways leave the same members, perhaps in another order. -/
theorem patched_append : SameOutcome (patched config (.obj members) (operations ++ others))
    (patched config (.obj members) operations >>= fun middle => patched config middle others) := by
  have hboth : ∀ operation ∈ operations ++ others, operation.NamesMember config :=
    fun operation hoperation =>
      (List.mem_append.1 hoperation).elim (hnames operation) (hothers operation)
  cases hfirst : batchSteps config (.obj members) operations with
  | error error =>
    rw [patched_eq, patched_eq, batchSteps_append, hfirst]
    exact .fault error error
  | ok first =>
    rw [patched_bind_eq hnames hothers hapart hmembers hfirst, patched_eq]
    cases hsecond : batchSteps config (.obj members) others with
    | error error =>
      rw [batchSteps_append, hfirst, hsecond]
      cases Edit.applyAll (assemble first) (.obj members) with
      | error fault => exact .fault error fault
      | ok middle => exact .fault error error
    | ok second =>
      have hsteps : batchSteps config (.obj members) (operations ++ others) =
          .ok (first ++ second) := by
        rw [batchSteps_append, hfirst, hsecond]
        rfl
      have hedits : ∀ edit ∈ assemble first ++ assemble second, ∃ key, edit.key? = some key :=
        fun edit hedit => (List.mem_append.1 hedit).elim
          (exists_key?_of_batchSteps hnames hfirst edit)
          (exists_key?_of_batchSteps hothers hsecond edit)
      have houtcome := Edit.applyAll_reordered (exists_key?_of_batchSteps hboth hsteps) hedits
        (Members.nodup_keys_of_folded hmembers)
        (below_of_namesApart hnames hothers hapart hfirst hsecond)
      rw [Edit.applyAll_append] at houtcome
      rw [hsteps]
      exact houtcome

end Apart

/-- The removal of an element and of a member beside additions to two others. -/
theorem patched_append_mixed :
    ∃ members operations others,
      members = [("title", .str "x"), ("emails", .arr [.obj [("type", .str "work")], .str "y"]),
        ("name", .obj [])] ∧
      operations = [⟨.remove, some "Emails[type eq \"work\"]", none⟩, ⟨.remove, some "title", none⟩] ∧
      others = [⟨.add, some "name.givenName", some (.str "z")⟩,
        ⟨.replace, some "nickName", some .null⟩] ∧
      SameOutcome (patched {} (.obj members) (operations ++ others))
        (patched {} (.obj members) operations >>= fun middle => patched {} middle others) ∧
      patched {} (.obj members) (operations ++ others) =
        .ok (.obj [("name", .obj [("givenName", .str "z")]), ("emails", .arr [.str "y"]),
          ("nickName", .null)]) := by
  have hemails : (⟨.remove, some "Emails[type eq \"work\"]", none⟩ : Operation).rootName? {} =
      some "Emails" := rfl
  have htitle : (⟨.remove, some "title", none⟩ : Operation).rootName? {} = some "title" := rfl
  have hname : (⟨.add, some "name.givenName", some (.str "z")⟩ : Operation).rootName? {} =
      some "name" := rfl
  have hnick : (⟨.replace, some "nickName", some .null⟩ : Operation).rootName? {} =
      some "nickName" := rfl
  have hnames : ∀ operation ∈ [(⟨.remove, some "Emails[type eq \"work\"]", none⟩ : Operation),
      ⟨.remove, some "title", none⟩], operation.NamesMember {} := by
    simp only [List.mem_cons, List.not_mem_nil, or_false, forall_eq_or_imp, forall_eq]
    exact ⟨Operation.namesMember_of_rootName? hemails, Operation.namesMember_of_rootName? htitle⟩
  have hothers : ∀ operation ∈ [(⟨.add, some "name.givenName", some (.str "z")⟩ : Operation),
      ⟨.replace, some "nickName", some .null⟩], operation.NamesMember {} := by
    simp only [List.mem_cons, List.not_mem_nil, or_false, forall_eq_or_imp, forall_eq]
    exact ⟨Operation.namesMember_of_rootName? hname, Operation.namesMember_of_rootName? hnick⟩
  have hapart : NamesApart {} [⟨.remove, some "Emails[type eq \"work\"]", none⟩,
      ⟨.remove, some "title", none⟩] [⟨.add, some "name.givenName", some (.str "z")⟩,
        ⟨.replace, some "nickName", some .null⟩] := by
    have hpair : ∀ {name other : String}, Text.sameFolded name other = false →
        ∀ name' other', some name = some name' → some other = some other' →
          Text.sameFolded name' other' = false := by
      rintro name other h _ _ ⟨⟩ ⟨⟩
      exact h
    simp only [NamesApart, List.mem_cons, List.not_mem_nil, or_false, forall_eq_or_imp, forall_eq,
      hemails, htitle, hname, hnick]
    exact ⟨⟨hpair (by decide), hpair (by decide)⟩, hpair (by decide), hpair (by decide)⟩
  have hconvert : convert {} (.obj [("title", .str "x"),
      ("emails", .arr [.obj [("type", .str "work")], .str "y"]), ("name", .obj [])])
      [⟨.remove, some "Emails[type eq \"work\"]", none⟩, ⟨.remove, some "title", none⟩,
        ⟨.add, some "name.givenName", some (.str "z")⟩, ⟨.replace, some "nickName", some .null⟩] =
    .ok [⟨.remove, "/title", none⟩, ⟨.add, "/name/givenName", some (.str "z")⟩,
      ⟨.add, "/nickName", some .null⟩, ⟨.remove, "/emails/0", none⟩] := rfl
  have happly : Edit.applyAll [⟨.remove, "/title", none⟩,
      ⟨.add, "/name/givenName", some (.str "z")⟩, ⟨.add, "/nickName", some .null⟩,
      ⟨.remove, "/emails/0", none⟩] (.obj [("title", .str "x"),
        ("emails", .arr [.obj [("type", .str "work")], .str "y"]), ("name", .obj [])]) =
    .ok (.obj [("name", .obj [("givenName", .str "z")]), ("emails", .arr [.str "y"]),
      ("nickName", .null)]) := by decide +kernel
  have hmembers : [("title", Json.str "x"), ("emails", .arr [.obj [("type", .str "work")], .str "y"]),
      ("name", .obj [])].Pairwise fun member other => Text.sameFolded member.1 other.1 = false := by
    decide
  have hsame := patched_append hnames hothers hapart hmembers
  exact ⟨_, _, _, rfl, rfl, rfl, hsame, Except.bind_eq_ok_iff.2 ⟨_, hconvert, happly⟩⟩

end Patch

end Scim
