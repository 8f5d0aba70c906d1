import Scim.Proofs.Patch.Independence

/-!
The frame of a batch. Every step goes to a member that the first name of some path stands for, or
below it, so a member that no path names is there afterwards exactly if it was there before, and with
the same value.
-/
namespace Scim.Patch

variable {config : Config} {members : List (String × Json)} {operations : List Operation}
  {steps : List Step} {document : Json} {key : String}

/-- No path of a batch starts with this name, whatever its case. -/
def Unnamed (config : Config) (operations : List Operation) (key : String) : Prop :=
  ∀ operation ∈ operations, ∀ name, operation.rootName? config = some name →
    Text.sameFolded key name = false

/-- No step goes to a member that no operation names. -/
theorem key?_ne_of_unnamed (hnames : ∀ operation ∈ operations, operation.NamesMember config)
    (hsteps : batchSteps config document operations = .ok steps)
    (hkey : Unnamed config operations key) : ∀ step ∈ steps, step.key? ≠ some key := by
  intro step hstep hstepKey
  obtain ⟨-, operation, hoperation, name, key', hname, hkey', hfolded⟩ :=
    rooted_of_mem_batchSteps hnames hsteps hstep
  obtain rfl : key = key' := Option.some.inj (hstepKey.symm.trans hkey')
  rw [hkey operation hoperation name hname] at hfolded
  exact Bool.noConfusion hfolded

/-- A batch leaves an object, and in it every member that no path names as it was. -/
theorem mem_iff_of_unnamed {edits : List Edit} {result : Json}
    (hnames : ∀ operation ∈ operations, operation.NamesMember config)
    (hkeys : (Members.keys members).Nodup)
    (hconvert : convert config (.obj members) operations = .ok edits)
    (happly : Edit.applyAll edits (.obj members) = .ok result) :
    ∃ after, result = .obj after ∧ (Members.keys after).Nodup ∧
      ∀ key, Unnamed config operations key →
        ∀ value, (key, value) ∈ after ↔ (key, value) ∈ members := by
  obtain ⟨steps, hsteps, rfl⟩ := Except.map_eq_ok_iff.1 hconvert
  obtain ⟨after, rfl, hnodup⟩ :=
    Edit.exists_obj_of_applyAll (exists_key?_of_batchSteps hnames hsteps) hkeys happly
  refine ⟨after, rfl, hnodup, fun key hkey value => ?_⟩
  have hrooted : ∀ step ∈ steps, step.Rooted :=
    fun step hstep => (rooted_of_mem_batchSteps hnames hsteps hstep).1
  have hfind := find?_applyAll_assemble hkeys hrooted happly (key?_ne_of_unnamed hnames hsteps hkey)
  rw [Members.mem_iff_find? hnodup, Members.mem_iff_find? hkeys, hfind]

/-- The removal of a member moves the last one, but neither changes it nor any other unnamed one. -/
theorem mem_iff_of_unnamed_sample :
    ∃ members operations edits after,
      members = [("title", .str "x"), ("emails", .arr [.obj [("type", .str "work")], .str "y"]),
        ("Name", .obj []), ("nickName", .obj [("a/b", .null)])] ∧
      operations = [⟨.remove, some "emails[type eq \"work\"]", none⟩,
        ⟨.add, some "name.givenName", some (.str "z")⟩, ⟨.remove, some "Title", none⟩] ∧
      convert {} (.obj members) operations = .ok edits ∧
      Edit.applyAll edits (.obj members) = .ok (.obj after) ∧
      Unnamed {} operations "nickName" ∧
      (∀ value, ("nickName", value) ∈ after ↔ ("nickName", value) ∈ members) ∧
      after.head? = some ("nickName", .obj [("a/b", .null)]) := by
  have hemails : (⟨.remove, some "emails[type eq \"work\"]", none⟩ : Operation).rootName? {} =
      some "emails" := rfl
  have hname : (⟨.add, some "name.givenName", some (.str "z")⟩ : Operation).rootName? {} =
      some "name" := rfl
  have htitle : (⟨.remove, some "Title", none⟩ : Operation).rootName? {} = some "Title" := rfl
  have hnames : ∀ operation ∈ [(⟨.remove, some "emails[type eq \"work\"]", none⟩ : Operation),
      ⟨.add, some "name.givenName", some (.str "z")⟩, ⟨.remove, some "Title", none⟩],
      operation.NamesMember {} := by
    simp only [List.mem_cons, List.not_mem_nil, or_false, forall_eq_or_imp, forall_eq]
    exact ⟨Operation.namesMember_of_rootName? hemails, Operation.namesMember_of_rootName? hname,
      Operation.namesMember_of_rootName? htitle⟩
  have hunnamed : Unnamed {} [⟨.remove, some "emails[type eq \"work\"]", none⟩,
      ⟨.add, some "name.givenName", some (.str "z")⟩, ⟨.remove, some "Title", none⟩]
      "nickName" := by
    simp only [Unnamed, List.mem_cons, List.not_mem_nil, or_false, forall_eq_or_imp, forall_eq,
      hemails, hname, htitle, Option.some.injEq, forall_eq']
    decide
  have hconvert : convert {} (.obj [("title", .str "x"),
      ("emails", .arr [.obj [("type", .str "work")], .str "y"]), ("Name", .obj []),
      ("nickName", .obj [("a/b", .null)])])
      [⟨.remove, some "emails[type eq \"work\"]", none⟩,
        ⟨.add, some "name.givenName", some (.str "z")⟩, ⟨.remove, some "Title", none⟩] =
    .ok [⟨.add, "/Name/givenName", some (.str "z")⟩, ⟨.remove, "/title", none⟩,
      ⟨.remove, "/emails/0", none⟩] := rfl
  have happly : Edit.applyAll [⟨.add, "/Name/givenName", some (.str "z")⟩,
      ⟨.remove, "/title", none⟩, ⟨.remove, "/emails/0", none⟩] (.obj [("title", .str "x"),
        ("emails", .arr [.obj [("type", .str "work")], .str "y"]), ("Name", .obj []),
        ("nickName", .obj [("a/b", .null)])]) =
    .ok (.obj [("nickName", .obj [("a/b", .null)]), ("emails", .arr [.str "y"]),
      ("Name", .obj [("givenName", .str "z")])]) := by decide +kernel
  obtain ⟨_, hafter, -, hmem⟩ := mem_iff_of_unnamed hnames (by decide) hconvert happly
  obtain rfl := Json.obj.inj hafter
  exact ⟨_, _, _, _, rfl, rfl, hconvert, happly, hunnamed, hmem "nickName" hunnamed, rfl⟩

end Scim.Patch
