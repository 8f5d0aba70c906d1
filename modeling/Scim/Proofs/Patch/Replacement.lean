import Scim.Proofs.Patch.Filtering
import Scim.Proofs.Patch.Place

/-!
Replacing what a filter selects from an array. One edit is made for each selected element, at the
element or at the place of a sub-attribute inside it, where it replaces a value that is there and
adds one that is missing. The edit of an element leaves the others alone, so together the edits
change the selected elements and nothing else.
-/
namespace Scim

/-- Tokens with the index of an element among them are not those of a blank pointer. -/
theorem Patch.ne_blank_of_indexToken (tokens inner : List String) (index : Nat) :
    tokens ++ indexToken index :: inner ≠ [""] := by
  intro h
  cases tokens with
  | nil =>
    obtain ⟨htoken, rfl⟩ := List.cons.inj h
    exact array_ne_blank [] index (congrArg (· :: []) htoken)
  | cons token tokens => simp at h

namespace Edit

variable {config : Config} {document value old new item : Json} {items : List Json}
  {tokens rest names : List String} {index : Nat}

theorem replace_index (hitem : items[index]? = some item)
    (hnew : replace rest value item = .ok new) :
    replace (Patch.indexToken index :: rest) value (.arr items) =
      .ok (.arr (items.set index new)) := by
  have hstep := descend_arr (index_of_getElem? hitem) hitem (replace rest value)
  rw [hnew] at hstep
  exact hstep

/-- A replacement below a value that is reached is one of this value. -/
theorem replace_append (hreach : document.reach tokens = some old)
    (hnew : replace rest value old = .ok new) :
    replace (tokens ++ rest) value document = .ok (Json.put tokens new document) := by
  rw [replace, update, List.foldr_append]
  exact Patch.update_of_reach hreach hnew

/-- An addition inside an element changes this element. -/
theorem add_index (hrest : rest ≠ []) (hitem : items[index]? = some item) (value : Json) :
    add (Patch.indexToken index :: rest) value (.arr items) =
      (add rest value item).map fun new => .arr (items.set index new) := by
  have hindex := index_of_getElem? hitem
  rw [add_cons hrest (lookup_key_arr.2 ⟨index, hindex, hitem⟩), descend_arr hindex hitem]

/-- An addition below a place that is there exchanges the value at this place. -/
theorem add_append (hreach : document.reach tokens = some old) (hrest : rest ≠ []) (value : Json) :
    add (tokens ++ rest) value document =
      (add rest value old).map fun new => Json.put tokens new document := by
  induction tokens generalizing document with
  | nil =>
    obtain rfl : document = old := Option.some.inj hreach
    rw [List.nil_append]
    cases add rest value document <;> rfl
  | cons key tokens ih =>
    obtain ⟨members, child, rfl, hchild, hold⟩ := Json.reach_cons_eq_some hreach
    have hne : tokens ++ rest ≠ [] := List.append_ne_nil_of_right_ne_nil tokens hrest
    rw [List.cons_append, add_cons_obj hne, hchild, Option.getD_some, ih hold, Except.map_map]
    simp only [Json.put_obj hchild]

theorem add_tokens (hway : config.OnWay (·.isObject = true) names document) (hne : names ≠ [])
    (value : Json) : add (config.tokens names (some document)) value document =
      .ok (config.assign value names document) := by
  induction names generalizing document with
  | nil => exact absurd rfl hne
  | cons name names ih =>
    obtain ⟨⟨members, rfl⟩, hnext⟩ := hway.step
    rw [Config.tokens_obj]
    cases names with
    | nil => rfl
    | cons next names =>
      have hnames : next :: names ≠ [] := List.cons_ne_nil next names
      rw [add_cons_obj (Config.tokens_ne_nil hnames _), Config.find?_spelled, ih hnext hnames]
      rfl

theorem replace_tokens (hfollow : config.follow names document = some old) (value : Json) :
    replace (config.tokens names (some document)) value document =
      .ok (config.assign value names document) := by
  have hreach := (config.reach_tokens names document).trans hfollow
  rw [Config.assign_eq_put hfollow]
  exact Patch.update_of_reach hreach rfl

end Edit

namespace Patch

variable {config : Config} {document value item : Json} {items : List Json} {text : String}
  {path : ValuePath} {tokens names : List String} {index : Nat}

def elementEdit (config : Config) (tokens names : List String) (value : Json) (index : Nat)
    (item : Json) : Edit :=
  ⟨if (config.follow names item).isSome then .replace else .add,
    Pointer.text (tokens ++ indexToken index :: config.tokens names (some item)), some value⟩

/-- The edit of an element assigns inside this element alone. -/
theorem apply_elementEdit (hreach : document.reach tokens = some (.arr items))
    (hitem : items[index]? = some item) (hway : config.OnWay (·.isObject = true) names item) :
    (elementEdit config tokens names value index item).apply document =
      .ok (Json.put tokens (.arr (items.set index (config.assign value names item))) document) := by
  have hparse := Pointer.parse_text
    (ne_blank_of_indexToken tokens (config.tokens names (some item)) index)
  -- A value that is there is replaced, and a missing one is added.
  cases hfollow : config.follow names item with
  | some old =>
    have hinner := Edit.replace_index hitem (Edit.replace_tokens hfollow value)
    simp only [elementEdit, hfollow, Option.isSome_some, if_true, Edit.apply, hparse,
      Edit.replace_append hreach hinner]
    rfl
  | none =>
    have hne : names ≠ [] := by
      rintro rfl
      simp [Config.follow] at hfollow
    have hrest : config.tokens names (some item) ≠ [] := Config.tokens_ne_nil hne _
    simp only [elementEdit, hfollow, Option.isSome_none, Bool.false_eq_true, if_false, Edit.apply,
      hparse, Edit.add_append hreach (List.cons_ne_nil _ _), Edit.add_index hrest hitem,
      Edit.add_tokens hway hne]
    rfl

/-- The edits of the elements that pass a test, one after the other, change these elements only. -/
theorem applyAll_elementEdits {test : Json → Bool} {rest : List Json} (value : Json)
    (hway : ∀ item ∈ rest, test item = true → config.OnWay (·.isObject = true) names item)
    (done : List Json) (hreach : document.reach tokens = some (.arr (done ++ rest))) :
    Edit.applyAll (((rest.zipIdx done.length).filter fun element => test element.1).map
        fun element => elementEdit config tokens names value element.2 element.1) document =
      .ok (Json.put tokens (.arr (done ++ rest.map fun item =>
        if test item then config.assign value names item else item)) document) := by
  -- `done` is what the edits before have left of the elements before `rest`.
  induction rest generalizing done document with
  | nil =>
    rw [List.map_nil, Json.put_of_reach hreach]
    rfl
  | cons item rest ih =>
    have hrest : ∀ other ∈ rest, test other = true →
        config.OnWay (·.isObject = true) names other :=
      fun other hother => hway other (List.mem_cons_of_mem item hother)
    rw [List.zipIdx_cons, List.map_cons]
    by_cases htest : test item = true
    · have hitem : (done ++ item :: rest)[done.length]? = some item := by simp
      have hset : (done ++ item :: rest).set done.length (config.assign value names item) =
          done ++ config.assign value names item :: rest := by simp
      have happly : (elementEdit config tokens names value done.length item).apply document =
          .ok (Json.put tokens (.arr (done ++ config.assign value names item :: rest))
            document) := by
        rw [← hset]
        exact apply_elementEdit hreach hitem (hway item List.mem_cons_self htest)
      have hreach' : (Json.put tokens (.arr (done ++ config.assign value names item :: rest))
          document).reach tokens =
            some (.arr (done ++ [config.assign value names item] ++ rest)) := by
        rw [Json.reach_put_self hreach, List.append_assoc, List.singleton_append]
      have hnext := ih hrest (done ++ [config.assign value names item]) hreach'
      rw [Json.put_put, List.length_append, List.length_singleton, List.append_assoc,
        List.singleton_append] at hnext
      have hfirst : ((item, done.length) :: rest.zipIdx (done.length + 1)).filter
          (fun element => test element.1) = (item, done.length) ::
            (rest.zipIdx (done.length + 1)).filter fun element => test element.1 :=
        List.filter_cons_of_pos htest
      rw [hfirst, List.map_cons, Edit.applyAll, List.foldlM_cons, happly, if_pos htest]
      exact hnext
    · have hnext := ih hrest (done ++ [item]) (by simpa using hreach)
      simpa [htest] using hnext

end Patch

def ValuePath.inner (config : Config) (path : ValuePath) : List String :=
  path.sub.toList.flatMap config.names

/-- What takes the place of a selected value: the new value, or the selected one with its
sub-attribute set. -/
def ValuePath.replaced (config : Config) (path : ValuePath) (value item : Json) : Json :=
  match path.sub with
  | none => value
  | some sub => config.assign value (config.names sub) item

namespace ValuePath

variable {config : Config} {sub : AttributePath}

theorem inner_of_sub_none (path : ValuePath) (h : path.sub = none) : path.inner config = [] := by
  rw [inner, h]
  rfl

theorem inner_of_sub (path : ValuePath) (h : path.sub = some sub) :
    path.inner config = config.names sub := by
  rw [inner, h, Option.toList_some, List.flatMap_singleton]

theorem replaced_eq_assign (config : Config) (path : ValuePath) (value item : Json) :
    path.replaced config value item = config.assign value (path.inner config) item := by
  rw [replaced]
  split
  · rename_i hsub
    rw [path.inner_of_sub_none hsub]
    rfl
  · rename_i sub hsub
    rw [path.inner_of_sub hsub]

end ValuePath

namespace Patch

variable {config : Config} {document : Json} {items : List Json} {text : String}
  {path : ValuePath} {tokens : List String}

theorem selectedSteps_replace (hparse : PatchPath.parse text = .ok (.filtered path)) (value : Json)
    (index : Nat) (item : Json) :
    selectedSteps config tokens path.sub (.replace value) (some index, item) =
      [.edit (elementEdit config tokens (path.inner config) value index item).op
        (tokens ++ indexToken index :: config.tokens (path.inner config) (some item))
        (some value)] := by
  obtain ⟨-, hsub⟩ := PatchPath.parse_eq_ok hparse
  cases hpath : path.sub with
  | none =>
    rw [path.inner_of_sub_none hpath]
    rfl
  | some sub =>
    obtain ⟨-, subText, hsubText⟩ := hsub sub hpath
    rw [path.inner_of_sub hpath, selectedSteps, subSteps, Config.lookup_pointer hsubText,
      replaceSteps, elementTokens, List.append_assoc, List.singleton_append]
    rfl

/-- One edit for each selected element. -/
theorem assemble_selected_replace (hparse : PatchPath.parse text = .ok (.filtered path))
    (value : Json) (items : List Json) :
    assemble ((selected config path.filter (some (.arr items))).flatMap
        (selectedSteps config tokens path.sub (.replace value))) =
      ((items.zipIdx 0).filter fun element => config.holds path.filter element.1).map
        fun element => elementEdit config tokens (path.inner config) value element.2 element.1 := by
  have hsteps : (selected config path.filter (some (.arr items))).flatMap
      (selectedSteps config tokens path.sub (.replace value)) =
        ((items.zipIdx 0).filter fun element => config.holds path.filter element.1).map
          fun element => .edit
            (elementEdit config tokens (path.inner config) value element.2 element.1).op
            (tokens ++ indexToken element.2 ::
              config.tokens (path.inner config) (some element.1))
            (some value) := by
    rw [selected, List.flatMap_map, List.map_eq_flatMap]
    simp only [selectedSteps_replace hparse]
  rw [hsteps, assemble_map_edit]
  rfl

/-- A replacement by filter is one edit for each selected value. -/
theorem convert_filtered_replacement (config : Config)
    (hparse : PatchPath.parse text = .ok (.filtered path)) (hcheck : path.filter.check = .ok ())
    (value document : Json) :
    convert config document [⟨.replace, some text, some value⟩] = .ok (assemble
      ((selected config path.filter (config.follow (config.names path.target) document)).flatMap
        (selectedSteps config (config.pointer document path.target) path.sub (.replace value)))) := by
  have haction : actionOf ⟨.replace, some text, some value⟩ = .ok (.replace value) := rfl
  have hadds : addsNoFields path.sub (.replace value) = false := by cases path.sub <;> rfl
  exact convert_filtered config document haction rfl hparse hcheck hadds

/-- Replacing what a filter selects from an array, or a sub-attribute of it, always succeeds and
changes the selected elements only. Of an element whose sub-attribute is set it changes the place of
the sub-attribute only. -/
theorem exists_convert_replacement (config : Config) (value : Json)
    (hparse : PatchPath.parse text = .ok (.filtered path)) (hcheck : path.filter.check = .ok ())
    (hitems : config.follow (config.names path.target) document = some (.arr items))
    (hway : ∀ sub ∈ path.sub, ∀ item ∈ items, config.holds path.filter item = true →
      config.OnWay (·.isObject = true) (config.names sub) item) :
    ∃ edits, convert config document [⟨.replace, some text, some value⟩] = .ok edits ∧
      Edit.applyAll edits document = .ok (Json.put (config.pointer document path.target)
        (.arr (items.map fun item =>
          if config.holds path.filter item then path.replaced config value item else item))
        document) ∧
      ∀ sub ∈ path.sub, ∀ item ∈ items, config.holds path.filter item = true →
        config.follow (config.names sub) (path.replaced config value item) = some value ∧
        ∀ other, ¬config.pointer item sub <+: other → ¬other <+: config.pointer item sub →
          (path.replaced config value item).reach other = item.reach other := by
  have hconvert := convert_filtered_replacement config hparse hcheck value document
  rw [hitems, assemble_selected_replace hparse] at hconvert
  have hreach := (config.reach_pointer path.target document).trans hitems
  have hinner : ∀ item ∈ items, config.holds path.filter item = true →
      config.OnWay (·.isObject = true) (path.inner config) item := by
    intro item hitem hholds
    cases hsub : path.sub with
    | none =>
      rw [path.inner_of_sub_none hsub]
      exact Config.onWay_nil _ item
    | some sub =>
      rw [path.inner_of_sub hsub]
      exact hway sub hsub item hitem hholds
  refine ⟨_, hconvert, ?_, ?_⟩
  · have happly := applyAll_elementEdits value hinner [] hreach
    simp only [ValuePath.replaced_eq_assign]
    exact happly
  · intro sub hsub item hitem hholds
    have hreplaced : path.replaced config value item =
        config.assign value (config.names sub) item := by
      rw [ValuePath.replaced, Option.mem_def.1 hsub]
    rw [hreplaced]
    refine ⟨Config.follow_assign value _ item, ?_⟩
    intro other hpath hother
    exact Config.reach_assign_of_apart (hway sub hsub item hitem hholds) value hpath hother

/-- A sub-attribute of two elements is set. One of them has a member for its first name, in another
case, and the other one has none. -/
theorem exists_convert_replacement_sample :
    ∃ document items path edits,
      document = .obj [("n", .num "1"), ("Emails", .arr items)] ∧
      items = [.obj [("type", .str "work"), ("Meta", .obj [("x", .null)])], .str "y",
        .obj [("type", .str "work")]] ∧
      PatchPath.parse "emails[type eq \"work\"].meta.x" = .ok (.filtered path) ∧
      path.filter.check = .ok () ∧ Config.follow {} ["emails"] document = some (.arr items) ∧
      (∀ item ∈ items, Config.holds {} path.filter item = true →
        Config.OnWay {} (·.isObject = true) ["meta", "x"] item) ∧
      edits = [⟨.replace, "/Emails/0/Meta/x", some (.num "2")⟩,
        ⟨.add, "/Emails/2/meta/x", some (.num "2")⟩] ∧
      convert {} document [⟨.replace, some "emails[type eq \"work\"].meta.x", some (.num "2")⟩] =
        .ok edits ∧
      Edit.applyAll edits document = .ok (.obj [("n", .num "1"), ("Emails", .arr [
        .obj [("type", .str "work"), ("Meta", .obj [("x", .num "2")])], .str "y",
        .obj [("type", .str "work"), ("meta", .obj [("x", .num "2")])]])]) := by
  have hparse : PatchPath.parse "emails[type eq \"work\"].meta.x" =
      .ok (.filtered ⟨⟨none, ["emails"]⟩, .comparison ⟨none, ["type"]⟩ .eq (.text "work"),
        some ⟨none, ["meta", "x"]⟩⟩) := rfl
  have hfollow : Config.follow {} ["emails"] (.obj [("n", .num "1"), ("Emails", .arr [
      .obj [("type", .str "work"), ("Meta", .obj [("x", .null)])], .str "y",
      .obj [("type", .str "work")]])]) = some (.arr [
        .obj [("type", .str "work"), ("Meta", .obj [("x", .null)])], .str "y",
        .obj [("type", .str "work")]]) := rfl
  have hway : ∀ item ∈ [Json.obj [("type", .str "work"), ("Meta", .obj [("x", .null)])], .str "y",
      .obj [("type", .str "work")]],
      Config.holds {} (.comparison ⟨none, ["type"]⟩ .eq (.text "work")) item = true →
        Config.OnWay {} (·.isObject = true) ["meta", "x"] item := by
    intro item hitem hholds
    rcases List.mem_cons.1 hitem with rfl | hitem
    · exact Config.onWay_of_follow rfl
    rcases List.mem_cons.1 hitem with rfl | hitem
    · exact Bool.noConfusion hholds
    · obtain rfl := List.mem_singleton.1 hitem
      have hnone : Config.child? {} (.obj [("type", .str "work")]) "meta" = none := rfl
      rw [Config.onWay_cons_iff, hnone]
      exact ⟨rfl, by simp⟩
  obtain ⟨edits, hconvert, happly, -⟩ := exists_convert_replacement {} (.num "2") hparse rfl hfollow
    fun sub hsub => Option.some.inj hsub ▸ hway
  obtain rfl := Except.ok.inj hconvert
  exact ⟨_, _, _, _, rfl, rfl, hparse, rfl, hfollow, hway, rfl, rfl, happly⟩

end Patch

end Scim
