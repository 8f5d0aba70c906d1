import Mathlib.Data.List.Basic
import Scim.Proofs.Patch.Persistence
import Scim.Proofs.Patch.Placement
import Scim.Proofs.Patch.Taking

/-!
What a staged removal deletes. It comes after the edits that are made at once and after removals from
other arrays or from behind it, which leave its place alone, so it deletes what the edits made at once
leave there. None of these touches the element, except an addition that takes the place of the array,
of something around it or of the whole document, or that goes in front of the element.
-/
namespace Scim

open Patch

def Edit.isWithin (place : List String) (edit : Edit) : Bool :=
  (Pointer.parse edit.pointer).any place.isPrefixOf

/-- An addition, or any edit of the root, takes the place of an array or of something around it. An
object added at the root takes the places of its own fields only. -/
def Edit.overwrites (array : List String) (edit : Edit) : Bool :=
  match Pointer.parse edit.pointer, edit.op, edit.value, array with
  | some [], .add, some (.obj fields), key :: _ => (Members.keys fields).contains key
  | some [], _, _, _ => true
  | some tokens, .add, _, _ => tokens.isPrefixOf array
  | _, _, _, _ => false

def Edit.shifts (removal : Removal) (edit : Edit) : Bool :=
  match Pointer.parse edit.pointer with
  | some tokens =>
    edit.op == .add && tokens.dropLast == removal.array &&
      tokens.getLast?.any fun token => (Edit.index token (removal.index + 1)).isOk
  | none => false

/-- After this edit another value may stand where a removal points to. -/
def Edit.disturbs (removal : Removal) (edit : Edit) : Bool :=
  edit.overwrites removal.array || edit.shifts removal

namespace Patch

/-- An edit that does not end on the way to an element and treats its neighbours well spares it. -/
theorem spares_of_not_prefix {op : PatchOp} {index : Nat} {array tokens : List String}
    (habove : ¬tokens <+: array)
    (helement : ∀ token rest, tokens = array ++ token :: rest → ∀ bound position,
      Edit.index token bound = .ok position →
        if rest = [] ∧ op ≠ .replace then index < position else position ≠ index) :
    Spares op index array tokens := by
  induction array generalizing tokens with
  | nil =>
    cases tokens with
    | nil => exact absurd List.nil_prefix habove
    | cons token rest => exact helement token rest rfl
  | cons key array ih =>
    cases tokens with
    | nil => exact absurd List.nil_prefix habove
    | cons token tokens =>
      rintro rfl
      refine ih (fun h => habove ((List.prefix_cons_inj token).2 h)) fun next rest htokens => ?_
      exact helement next rest (by rw [htokens, List.cons_append])

theorem Placed.plain_of_mem_dropLast {document : Json} {op : PatchOp} {tokens : List String}
    {value : Option Json} (h : Placed document (.edit op tokens value)) :
    ∀ token ∈ tokens.dropLast, Plain token := by
  cases h with
  | add hbase => rwa [List.dropLast_concat]
  | replace htokens => exact fun token htoken => htokens token (List.dropLast_subset _ htoken)
  | replaceField => simp
  | remove hbase => rwa [List.dropLast_concat]
  | removeRoot => simp

theorem Placed.add_ne_nil {document : Json} {tokens : List String} {value : Option Json}
    (h : Placed document (.edit .add tokens value)) : tokens ≠ [] := by
  cases h with
  | add => simp

theorem mem_dropLast_of_eq {tokens array rest : List String} {token : String}
    (h : tokens = array ++ token :: rest) (hrest : rest ≠ []) : token ∈ tokens.dropLast := by
  rw [h, List.dropLast_append_of_ne_nil (List.cons_ne_nil token rest),
    List.dropLast_cons_of_ne_nil hrest]
  simp

/-- An edit made at once spares an element if it is not at the element, does not hold it and inserts
nothing in front of it. -/
theorem Placed.spares {document : Json} {op : PatchOp} {tokens : List String}
    {value : Option Json} {removal : Removal} (h : Placed document (.edit op tokens value))
    (hfits : removal.Fits document) (habove : ¬tokens <+: removal.array)
    (hwithin : ∀ rest, tokens ≠ removal.place ++ rest)
    (hbehind : op = .add → ∀ token, tokens = removal.array ++ [token] → ∀ bound position,
      Edit.index token bound = .ok position → removal.index < position) :
    Spares op removal.index removal.array tokens := by
  refine spares_of_not_prefix habove fun token rest htokens bound position hposition => ?_
  have hplain : Plain token → position ≠ removal.index := by
    rintro htoken rfl
    rw [htoken.index_eq hposition] at htokens
    exact hwithin rest (by rw [htokens, Removal.place, List.append_assoc, List.singleton_append])
  by_cases hrest : rest = []
  · subst hrest
    cases h with
    | add =>
      have hposition := hbehind rfl token htokens bound position hposition
      simpa using hposition
    | replace hall =>
      have htoken : token ∈ tokens := by simp [htokens]
      simpa using hplain (hall token htoken)
    | @replaceField key _ members hdocument =>
      obtain ⟨items, hitems, -⟩ := hfits
      obtain ⟨harray, -⟩ := List.append_eq_singleton_iff.1 htokens.symm |>.resolve_right (by simp)
      rw [harray, hdocument] at hitems
      simp [Json.reach] at hitems
    | remove hbase hname =>
      obtain ⟨-, rfl⟩ := List.append_singleton_inj.1 htokens
      rw [Pointer.index_of_leadsName hname] at hposition
      simp at hposition
    | removeRoot => simp at htokens
  · have hmem := mem_dropLast_of_eq htokens hrest
    simpa [hrest] using hplain (h.plain_of_mem_dropLast token hmem)

theorem not_prefix_of_overwrites {edit : Edit} {array tokens : List String}
    (hparse : Pointer.parse edit.pointer = some tokens) (hop : edit.op = .add) (hne : tokens ≠ [])
    (h : edit.overwrites array = false) : ¬tokens <+: array := by
  cases tokens with
  | nil => exact absurd rfl hne
  | cons token tokens =>
    simp only [Edit.overwrites, hparse, hop] at h
    exact fun habove => by simp [List.isPrefixOf_iff_prefix.2 habove] at h

theorem behind_of_shifts {edit : Edit} {removal : Removal} {token : String}
    (hparse : Pointer.parse edit.pointer = some (removal.array ++ [token])) (hop : edit.op = .add)
    (h : edit.shifts removal = false) {bound position : Nat}
    (hposition : Edit.index token bound = .ok position) : removal.index < position := by
  apply Nat.lt_of_not_le
  intro hle
  have hindex := Pointer.index_of_index hposition (Nat.lt_succ_of_le hle)
  simp [Edit.shifts, hparse, hop, hindex, Except.isOk, Except.toBool] at h

/-- An edit of the root that takes no place of an array merges fields of other names. -/
theorem stands_apply_root {edit : Edit} {removal : Removal} {value document result : Json}
    (hparse : Pointer.parse edit.pointer = some [])
    (hoverwrites : edit.overwrites removal.array = false)
    (h : Stands removal.index value removal.array document)
    (hresult : edit.apply document = .ok result) :
    Stands removal.index value removal.array result := by
  simp only [Edit.overwrites, hparse] at hoverwrites
  split at hoverwrites
  · rename_i fields key path hop hvalue harray
    simp only [Edit.apply, hparse, hop, hvalue, Edit.add] at hresult
    obtain rfl := Except.ok.inj (Edit.located_eq_ok hresult)
    rw [harray] at h ⊢
    exact stands_addRoot h (by simpa using hoverwrites)
  · simp at hoverwrites
  · rename_i hne htokens _ _
    exact absurd (Option.some.inj htokens).symm hne
  · rename_i hroot _ _
    exact absurd rfl hroot

variable {config : Config} {document : Json} {operations : List Operation} {steps : List Step}

/-- An edit that replaces or removes an array, or something around it, supersedes the removals from
it. -/
theorem not_prefix_of_not_superseded {array tokens : List String} {op : PatchOp}
    {value : Option Json} (h : steps.any (supersedes array) = false)
    (hstep : .edit op tokens value ∈ steps) (hop : op ≠ .add) : ¬tokens <+: array := by
  intro habove
  have hnot := List.any_eq_false.1 h _ hstep
  cases op with
  | add => exact hop rfl
  | remove => exact hnot (List.isPrefixOf_iff_prefix.2 habove)
  | replace => exact hnot (List.isPrefixOf_iff_prefix.2 habove)

/-- An edit that does not disturb an element keeps it in its place. -/
theorem stands_immediate {removal : Removal} {edit : Edit} {value before after : Json}
    (hplaced : ∀ step ∈ steps, Placed document step) (hfits : removal.Fits document)
    (hsuperseded : steps.any (supersedes removal.array) = false) (hedit : edit ∈ immediate steps)
    (hwithin : edit.isWithin removal.place = false)
    (hdisturbs : edit.disturbs removal = false)
    (h : Stands removal.index value removal.array before) (hresult : edit.apply before = .ok after) :
    Stands removal.index value removal.array after := by
  obtain ⟨hoverwrites, hshifts⟩ := Bool.or_eq_false_iff.1 hdisturbs
  obtain ⟨tokens, hstep, hpointer⟩ := mem_immediate hedit
  by_cases hblank : tokens = [""]
  · have hparse : Pointer.parse edit.pointer = some [] := by
      rw [hpointer, hblank, Pointer.parse_text_blank]
    exact stands_apply_root hparse hoverwrites h hresult
  · have hparse : Pointer.parse edit.pointer = some tokens := by
      rw [hpointer, Pointer.parse_text hblank]
    have habove : ¬tokens <+: removal.array := by
      by_cases hop : edit.op = .add
      · have hadd := hplaced _ hstep
        rw [hop] at hadd
        exact not_prefix_of_overwrites hparse hop hadd.add_ne_nil hoverwrites
      · exact not_prefix_of_not_superseded hsuperseded hstep hop
    refine stands_apply h hparse ((hplaced _ hstep).spares hfits habove ?_ ?_) hresult
    · rintro rest rfl
      have hinside := List.isPrefixOf_iff_prefix.2 (List.prefix_append removal.place rest)
      rw [Edit.isWithin, hparse, Option.any_some, hinside] at hwithin
      exact Bool.noConfusion hwithin
    · rintro hop token rfl bound position hposition
      exact behind_of_shifts hparse hop hshifts hposition

theorem lookup_element {array : List String} {items : List Json} {document : Json}
    (h : document.reach array = some (.arr items)) (index : Nat) :
    Pointer.lookup (array ++ [indexToken index]) document = items[index]? := by
  induction array generalizing document with
  | nil =>
    obtain rfl : document = .arr items := Option.some.inj h
    rw [List.nil_append, Pointer.lookup, Pointer.index?_indexToken, Option.bind_some]
    cases items[index]? <;> rfl
  | cons key array ih =>
    obtain ⟨members, child, rfl, hchild, h⟩ := Json.reach_cons_eq_some h
    rw [List.cons_append, Pointer.lookup, hchild]
    exact ih h

theorem Removal.isWithin_edit (removal : Removal) : removal.edit.isWithin removal.place = true := by
  rw [Edit.isWithin, removal.parse_edit, Option.any_some]
  exact List.isPrefixOf_iff_prefix.2 (List.prefix_refl _)

/-- In front of a removal stand the edits made at once and the removals that come before it in
order. -/
theorem exists_earlier {removal : Removal} {before after : List Edit}
    (hremoval : removal ∈ stagedWhere false steps)
    (hsplit : assemble steps = before ++ removal.edit :: after)
    (hbefore : removal.edit ∉ before) (hafter : removal.edit ∉ after) :
    ∃ earlier : List Removal, before = immediate steps ++ earlier.map Removal.edit ∧
      ∀ first ∈ earlier, first ∈ stagedWhere false steps ∧ first.order removal = .lt := by
  obtain ⟨earlier, later, hstaged⟩ := List.append_of_mem hremoval
  have hordered := ordered_stagedWhere false steps
  rw [hstaged] at hordered
  have hassemble : assemble steps = (immediate steps ++ earlier.map Removal.edit) ++
      removal.edit :: later.map Removal.edit := by
    rw [assemble, hstaged, List.map_append, List.map_cons, List.append_assoc]
  rw [hassemble] at hsplit
  obtain ⟨rfl, -, -⟩ := (List.append_cons_inj_of_notMem hbefore hafter).1 hsplit.symm
  refine ⟨earlier, rfl, fun first hfirst => ⟨?_, ?_⟩⟩
  · rw [hstaged]
    exact List.mem_append_left _ hfirst
  · exact (List.pairwise_append.1 hordered).2.2 first hfirst removal List.mem_cons_self

/-- A staged removal finds its element in the original document. -/
theorem fits_of_mem_stagedWhere {removal : Removal}
    (hsteps : batchSteps config document operations = .ok steps)
    (h : removal ∈ stagedWhere false steps) :
    removal.Fits document ∧ ∀ token ∈ removal.array, AttributePath.LeadsName token := by
  have hstage := placed_batchSteps hsteps (mem_staged.1 (List.mem_filter.1 h).1)
  cases hstage with
  | stage hfits harray => exact ⟨hfits, harray⟩

theorem distinctKeys_immediate {middle : Json} (hdistinct : document.DistinctKeys)
    (hvalues : ∀ operation ∈ operations, ∀ value, operation.value = some value → value.DistinctKeys)
    (hsteps : batchSteps config document operations = .ok steps)
    (hmiddle : Edit.applyAll (immediate steps) document = .ok middle) : middle.DistinctKeys := by
  refine Edit.distinctKeys_applyAll hdistinct (fun edit hedit => ?_) hmiddle
  obtain ⟨tokens, hstep, -⟩ := mem_immediate hedit
  exact distinctKeys_batchSteps hvalues hsteps hstep

/-- A staged removal deletes what the edits made at once leave at its place, if no other edit is at or
inside the element. This is the element that stood there in the document, if none of these edits takes
the place of the array or inserts in front of the element. -/
theorem deletes_original {removal : Removal} {before after : List Edit} {reached : Json}
    (hdistinct : document.DistinctKeys)
    (hvalues : ∀ operation ∈ operations, ∀ value, operation.value = some value → value.DistinctKeys)
    (hsteps : batchSteps config document operations = .ok steps)
    (hremoval : removal ∈ stagedWhere false steps)
    (hconvert : convert config document operations = .ok (before ++ removal.edit :: after))
    (hothers : ∀ edit ∈ before ++ after, edit.isWithin removal.place = false)
    (hreached : Edit.applyAll before document = .ok reached) :
    ∃ value middle, Pointer.lookup removal.place document = some value ∧
      Edit.applyAll (immediate steps) document = .ok middle ∧
      removal.takes reached = Pointer.lookup removal.place middle ∧
      ((∀ edit ∈ immediate steps, edit.disturbs removal = false) →
        removal.takes reached = some value) := by
  obtain ⟨steps', hsteps', hassemble⟩ := Except.map_eq_ok_iff.1 hconvert
  obtain rfl := Except.ok.inj (hsteps.symm.trans hsteps')
  have hstaged : ∀ first ∈ stagedWhere false steps, first.Fits document ∧
      ∀ token ∈ first.array, AttributePath.LeadsName token := fun _ => fits_of_mem_stagedWhere hsteps
  obtain ⟨hfits, hnames⟩ := hstaged removal hremoval
  have hother : ∀ edit ∈ before ++ after, edit ≠ removal.edit := by
    rintro edit hedit rfl
    have houtside := hothers _ hedit
    rw [removal.isWithin_edit] at houtside
    exact Bool.noConfusion houtside
  obtain ⟨earlier, rfl, hearlier⟩ := exists_earlier hremoval hassemble
    (fun h => hother _ (List.mem_append_left after h) rfl)
    (fun h => hother _ (List.mem_append_right _ h) rfl)
  rw [Edit.applyAll_append] at hreached
  obtain ⟨middle, hmiddle, hreached⟩ := Except.bind_eq_ok_iff.1 hreached
  have htakes : removal.takes reached = Pointer.lookup removal.place middle := by
    rw [Removal.takes_eq_lookup hnames]
    refine lookup_place_applyAll (fun first hfirst => ?_) hnames
      (distinctKeys_immediate hdistinct hvalues hsteps hmiddle) hreached
    obtain ⟨hkept, horder⟩ := hearlier first hfirst
    exact ⟨horder, (hstaged first hkept).2⟩
  obtain ⟨originals, horiginals, hindex⟩ := id hfits
  have hvalue := List.getElem?_eq_getElem hindex
  refine ⟨originals[removal.index], middle, ?_, hmiddle, htakes, fun hundisturbed => ?_⟩
  · rw [Removal.place, lookup_element horiginals, hvalue]
  have hsuperseded : steps.any (supersedes removal.array) = false := by
    simpa using (List.mem_filter.1 hremoval).2
  have hstands : Stands removal.index originals[removal.index] removal.array middle := by
    refine Edit.applyAll_preserves (fun edit hedit _ _ => ?_)
      (stands_of_reach hdistinct horiginals hvalue) hmiddle
    have houtside := hothers edit (List.mem_append_left after (List.mem_append_left _ hedit))
    exact stands_immediate (fun _ => placed_batchSteps hsteps) hfits hsuperseded hedit houtside
      (hundisturbed edit hedit)
  obtain ⟨items, hitems, hitem⟩ := exists_reach_of_stands hstands
  rw [htakes, Removal.place, lookup_element hitems, hitem]

def sample : Json :=
  .obj [("emails", .arr [.obj [("type", .str "work")], .obj [("type", .str "home")]])]

theorem distinctKeys_sample : sample.DistinctKeys := by
  refine .single "emails" (.arr fun item hitem => ?_)
  rcases List.mem_pair.1 hitem with rfl | rfl
  · exact .single "type" (.str "work")
  · exact .single "type" (.str "home")

/-- An addition beside the array and one inside another element leave the removal its element. -/
theorem deletes_original_sample :
    ∃ operations before reached,
      operations = [⟨.add, none, some (.obj [("n", .str "y")])⟩,
        ⟨.add, some "emails[type eq \"home\"].v", some (.str "z")⟩,
        ⟨.remove, some "emails[type eq \"work\"]", none⟩] ∧
      convert {} sample operations = .ok (before ++ [Removal.edit ⟨["emails"], 0⟩]) ∧
      Edit.applyAll before sample = .ok reached ∧
      Removal.takes ⟨["emails"], 0⟩ reached = some (.obj [("type", .str "work")]) := by
  have hvalues : ∀ operation ∈ [(⟨.add, none, some (.obj [("n", .str "y")])⟩ : Operation),
      ⟨.add, some "emails[type eq \"home\"].v", some (.str "z")⟩,
      ⟨.remove, some "emails[type eq \"work\"]", none⟩],
      ∀ value, operation.value = some value → value.DistinctKeys := by
    simp only [List.mem_cons, List.not_mem_nil, or_false, forall_eq_or_imp, forall_eq]
    refine ⟨fun value hvalue => ?_, fun value hvalue => ?_, fun value hvalue => ?_⟩
    · rw [← Option.some.inj hvalue]
      exact .single "n" (.str "y")
    · rw [← Option.some.inj hvalue]
      exact .str "z"
    · simp at hvalue
  have hsteps : batchSteps {} sample [⟨.add, none, some (.obj [("n", .str "y")])⟩,
      ⟨.add, some "emails[type eq \"home\"].v", some (.str "z")⟩,
      ⟨.remove, some "emails[type eq \"work\"]", none⟩] =
    .ok [.edit .add ["n"] (some (.str "y")), .edit .add ["emails", "1", "v"] (some (.str "z")),
      .stage ⟨["emails"], 0⟩] := rfl
  have hremoval : (⟨["emails"], 0⟩ : Removal) ∈ stagedWhere false
      [.edit .add ["n"] (some (.str "y")), .edit .add ["emails", "1", "v"] (some (.str "z")),
        .stage ⟨["emails"], 0⟩] := List.mem_cons_self
  have hconvert : convert {} sample [⟨.add, none, some (.obj [("n", .str "y")])⟩,
      ⟨.add, some "emails[type eq \"home\"].v", some (.str "z")⟩,
      ⟨.remove, some "emails[type eq \"work\"]", none⟩] =
    .ok ([⟨.add, "/n", some (.str "y")⟩, ⟨.add, "/emails/1/v", some (.str "z")⟩] ++
      Removal.edit ⟨["emails"], 0⟩ :: []) := rfl
  have hothers : ∀ edit ∈ [(⟨.add, "/n", some (.str "y")⟩ : Edit),
      ⟨.add, "/emails/1/v", some (.str "z")⟩] ++ [],
      edit.isWithin (Removal.place ⟨["emails"], 0⟩) = false := by decide
  have hreached : Edit.applyAll [⟨.add, "/n", some (.str "y")⟩,
      ⟨.add, "/emails/1/v", some (.str "z")⟩] sample = .ok (.obj [("emails",
        .arr [.obj [("type", .str "work")], .obj [("type", .str "home"), ("v", .str "z")]]),
        ("n", .str "y")]) := rfl
  obtain ⟨value, middle, hvalue, -, -, htakes⟩ :=
    deletes_original distinctKeys_sample hvalues hsteps hremoval hconvert hothers hreached
  obtain rfl : .obj [("type", .str "work")] = value := Option.some.inj hvalue
  exact ⟨_, _, _, rfl, hconvert, hreached, htakes (by decide)⟩

/-- An addition in the place of the array makes the removal delete what was added. -/
theorem deletes_added_element :
    ∃ before reached,
      convert {} sample [⟨.add, none, some (.obj [("emails", .arr [.obj [("type", .str "other")]])])⟩,
          ⟨.remove, some "emails[type eq \"work\"]", none⟩] =
        .ok (before ++ [Removal.edit ⟨["emails"], 0⟩]) ∧
      (∀ edit ∈ before, edit.isWithin (Removal.place ⟨["emails"], 0⟩) = false) ∧
      Edit.applyAll before sample = .ok reached ∧
      Pointer.lookup (Removal.place ⟨["emails"], 0⟩) sample =
        some (.obj [("type", .str "work")]) ∧
      Removal.takes ⟨["emails"], 0⟩ reached = some (.obj [("type", .str "other")]) ∧
      (Removal.edit ⟨["emails"], 0⟩).apply reached = .ok (.obj [("emails", .arr [])]) :=
  ⟨[⟨.add, "/emails", some (.arr [.obj [("type", .str "other")]])⟩],
    .obj [("emails", .arr [.obj [("type", .str "other")]])], rfl, by decide, rfl, rfl, rfl, rfl⟩

end Patch

end Scim
