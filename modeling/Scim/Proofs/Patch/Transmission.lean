import Scim.Engine
import Scim.Proofs.Patch.Decoding

/-!
Requests that are written as a value and read again. A null value of an operation comes back as none
and the other values come back as requests store them; nothing else changes.
-/
namespace Scim

open Json

namespace Json.Source

variable {draft : Draft} {decodePath : Source → Except DecodeFault (Option String)}
  {limit : Option Nat} {value : Json}

theorem ofItems_eq_map (items : List Json) : ofItems items = items.map ofJson := by
  induction items with
  | nil => rfl
  | cons item items ih => rw [ofItems, ih, List.map_cons]

theorem decodeOp_name (op : PatchOp) : (str (some op.name)).decodeOp = .ok op := by
  have hname : PatchOp.ofName? op.name = some op := by cases op <;> decide
  simp only [decodeOp, decodeString, Except.bind_eq_ok_iff, Except.ok.injEq, exists_eq_left', hname]
  rfl

/-- Null is read as an absent value. -/
theorem decodeOption_ofJson_iff {read : Option Json} :
    decodeOption (decodeValue none) (ofJson value) = .ok read ↔
      if value.isNull then read = none
      else ∃ other, value.received? = some other ∧ some other = read := by
  split
  · rename_i hnull
    obtain rfl := eq_null_of_isNull hnull
    simp [ofJson, decodeOption, eq_comm]
  · rename_i hnull
    have hsource : ofJson value ≠ null := by
      cases value with
      | null => exact absurd rfl hnull
      | _ => simp [ofJson]
    simp only [decodeOption_of_ne hsource, Except.map_eq_ok_iff, decodeValue_eq_ok_iff, received?]

def namedPart (op : PatchOp) (path : Option String) : List (Option String × Source) :=
  (some "op", str (some op.name)) :: (path.map fun path => (some "path", str (some path))).toList

theorem foldlM_namedPart (op : PatchOp) (path : Option String) :
    (namedPart op path).foldlM (Draft.addMember (decodeOption decodeString) limit) {} =
      .ok { op := some op, path := path.map some } := by
  have hop : Draft.addMember (decodeOption decodeString) limit {} (some "op", str (some op.name)) =
      .ok { op := some op } := by
    simp only [Draft.addMember, once, decodeOp_name]
    rfl
  rw [namedPart, List.foldlM_cons, hop]
  cases path <;> rfl

theorem addMember_value (h : draft.value = none) (source : Source) :
    draft.addMember decodePath limit (some "value", source) =
      (decodeOption (decodeValue limit) source).map fun read => { draft with value := some read } := by
  simp only [Draft.addMember, once, h]
  cases decodeOption (decodeValue limit) source <;> rfl

end Json.Source

namespace Operation

/-- An operation whose value is absent if it was null. -/
def withoutNull (operation : Operation) : Operation :=
  { operation with
    value := operation.value.bind fun value => if value.isNull then none else some value }

def stored (operation : Operation) : Operation :=
  { operation with value := operation.withoutNull.value.map Json.stored }

def received? (operation : Operation) : Option Operation :=
  match operation.withoutNull.value with
  | none => some operation.withoutNull
  | some value => value.received?.map fun other => { operation with value := some other }

variable {operation other : Operation}

theorem ofJson_toJson_absent (op : PatchOp) (path : Option String) :
    ofJson (toJson ⟨op, path, none⟩) = .ok ⟨op, path, none⟩ := by
  have hmembers : Source.ofJson (toJson ⟨op, path, none⟩) = .obj (Source.namedPart op path) := by
    cases path <;> rfl
  rw [ofJson, hmembers, Source.decodeOperation, Source.decodeDraft, Source.foldlM_namedPart]
  cases path <;> rfl

/-- Only the value of an operation is changed by reading it back. -/
theorem ofJson_toJson_present (op : PatchOp) (path : Option String) (value : Json) :
    ofJson (toJson ⟨op, path, some value⟩) =
      (Source.decodeOption (Source.decodeValue none) (Source.ofJson value)).map
        fun read => ⟨op, path, read⟩ := by
  have hmembers : Source.ofJson (toJson ⟨op, path, some value⟩) =
      .obj (Source.namedPart op path ++ [(some "value", Source.ofJson value)]) := by
    cases path <;> rfl
  have hread : ∀ draft : Source.Draft, draft.value = none →
      [(some "value", Source.ofJson value)].foldlM
          (Source.Draft.addMember (Source.decodeOption Source.decodeString) none) draft =
        (Source.decodeOption (Source.decodeValue none) (Source.ofJson value)).map
          fun read => { draft with value := some read } := by
    intro draft hdraft
    rw [List.foldlM_cons, Source.addMember_value hdraft]
    cases Source.decodeOption (Source.decodeValue none) (Source.ofJson value) <;> rfl
  rw [ofJson, hmembers, Source.decodeOperation, Source.decodeDraft, List.foldlM_append,
    Source.foldlM_namedPart]
  simp only [bind, Except.bind, hread]
  cases Source.decodeOption (Source.decodeValue none) (Source.ofJson value) with
  | error fault => rfl
  | ok read => cases path <;> rfl

theorem received?_of_isNull {op : PatchOp} {path : Option String} {value : Json}
    (h : value.isNull = true) : received? ⟨op, path, some value⟩ = some ⟨op, path, none⟩ := by
  simp [received?, withoutNull, h]

theorem received?_of_not_isNull {op : PatchOp} {path : Option String} {value : Json}
    (h : value.isNull = false) :
    received? ⟨op, path, some value⟩ = value.received?.map fun other => ⟨op, path, some other⟩ := by
  simp [received?, withoutNull, h]

/-- An operation that is written is read as the one that a request holds, if there is one. -/
theorem ofJson_toJson_iff : ofJson operation.toJson = .ok other ↔ operation.received? = some other := by
  obtain ⟨op, path, value⟩ := operation
  cases value with
  | none => simp [ofJson_toJson_absent, received?, withoutNull]
  | some value =>
    rw [ofJson_toJson_present, Except.map_eq_ok_iff]
    simp only [Source.decodeOption_ofJson_iff]
    cases hnull : value.isNull with
    | true => simp [received?_of_isNull hnull]
    | false => simp [received?_of_not_isNull hnull]

/-- An operation comes back unchanged exactly if its value does. -/
theorem received?_eq_withoutNull_iff (h : ∀ value ∈ operation.value, value.DistinctKeys) :
    operation.received? = some operation.withoutNull ↔
      ∀ value ∈ operation.value, value.Unmarked ∧ value.stored = value := by
  obtain ⟨op, path, value⟩ := operation
  cases value with
  | none => simp [received?, withoutNull]
  | some value =>
    have hdistinct : value.DistinctKeys := h value rfl
    cases hnull : value.isNull with
    | true =>
      obtain rfl := eq_null_of_isNull hnull
      simp [received?_of_isNull hnull, withoutNull, hnull, Unmarked.null, Json.stored]
    | false =>
      simp [received?_of_not_isNull hnull, withoutNull, hnull, received?_eq_self_iff hdistinct]

theorem received?_eq_stored (hdistinct : ∀ value ∈ operation.value, value.DistinctKeys)
    (h : ∀ value ∈ operation.value, value.Unmarked) : operation.received? = some operation.stored := by
  obtain ⟨op, path, value⟩ := operation
  cases value with
  | none => simp [received?, withoutNull, stored]
  | some value =>
    have hvalue := Json.received?_eq_stored (hdistinct value rfl) (h value rfl)
    cases hnull : value.isNull with
    | true => simp [received?_of_isNull hnull, stored, withoutNull, hnull]
    | false => simp [received?_of_not_isNull hnull, stored, withoutNull, hnull, hvalue]

end Operation

namespace Request

def withoutNulls (request : Request) : Request :=
  { request with operations := request.operations.map Operation.withoutNull }

def stored (request : Request) : Request :=
  { request with operations := request.operations.map Operation.stored }

def values (request : Request) : List Json := request.operations.filterMap Operation.value

variable {request other : Request}

/-- A request is read back operation by operation. -/
theorem decodeRequest_toJson (request : Request) :
    (Source.ofJson request.toJson).decodeRequest none =
      (request.operations.mapM fun operation => Operation.ofJson operation.toJson).map
        fun operations => ⟨request.schemas, operations⟩ := by
  have hschemas : ((request.schemas.map Json.str).map Source.ofJson).mapM Source.decodeString =
      .ok request.schemas := by
    rw [Except.mapM_eq_ok_iff, List.map_map, List.forall₂_map_left_iff, List.forall₂_same]
    exact fun _ _ => rfl
  have hoperations : ((request.operations.map Operation.toJson).map Source.ofJson).mapM
      (Source.decodeOperation none) =
        request.operations.mapM fun operation => Operation.ofJson operation.toJson := by
    simp only [List.mapM_map]
    rfl
  simp only [toJson, Source.ofJson, Source.ofMembers, Source.decodeRequest, Source.decodeRequestDraft,
    Source.RequestDraft.addMember, Source.once, Source.decodeList, Source.ofItems_eq_map, hschemas,
    hoperations, List.foldlM_cons, List.foldlM_nil]
  cases request.operations.mapM fun operation => Operation.ofJson operation.toJson with
  | error fault => rfl
  | ok operations => rfl

/-- A request that is written is read as a request that holds the same but for the values. -/
theorem ofJson_toJson_iff : ofJson request.toJson = .ok other ↔
    request.validate = .ok () ∧ other.schemas = request.schemas ∧
      List.Forall₂ (fun operation other => operation.received? = some other)
        request.operations other.operations := by
  rw [ofJson, accept_eq_ok_iff, decodeRequest_toJson, Except.map_eq_ok_iff]
  simp only [Except.mapM_eq_ok_iff, Operation.ofJson_toJson_iff]
  obtain ⟨schemas, operations⟩ := other
  constructor
  · rintro ⟨⟨found, hfound, heq⟩, hvalid⟩
    obtain ⟨rfl, rfl⟩ := Request.mk.inj heq
    exact ⟨hvalid, rfl, hfound⟩
  · rintro ⟨hvalid, rfl, hfound⟩
    exact ⟨⟨operations, hfound, rfl⟩, hvalid⟩

theorem mem_values {value : Json} : value ∈ request.values ↔
    ∃ operation ∈ request.operations, value ∈ operation.value :=
  List.mem_filterMap

/-- A valid request comes back with null values absent and all else unchanged exactly if all its values
are kept. -/
theorem ofJson_toJson_eq_withoutNulls_iff (hvalid : request.validate = .ok ())
    (hdistinct : ∀ value ∈ request.values, value.DistinctKeys) :
    ofJson request.toJson = .ok request.withoutNulls ↔
      ∀ value ∈ request.values, value.Unmarked ∧ value.stored = value := by
  have hoperation : ∀ operation ∈ request.operations,
      operation.received? = some operation.withoutNull ↔
        ∀ value ∈ operation.value, value.Unmarked ∧ value.stored = value :=
    fun operation hmem => Operation.received?_eq_withoutNull_iff fun value hvalue =>
      hdistinct value (mem_values.2 ⟨operation, hmem, hvalue⟩)
  rw [ofJson_toJson_iff, withoutNulls, List.forall₂_map_right_iff, List.forall₂_same]
  simp only [hvalid, true_and, mem_values]
  constructor
  · rintro h value ⟨operation, hmem, hvalue⟩
    exact (hoperation operation hmem).1 (h operation hmem) value hvalue
  · intro h operation hmem
    exact (hoperation operation hmem).2 fun value hvalue => h value ⟨operation, hmem, hvalue⟩

/-- Without the reserved name a valid request comes back as it is stored. -/
theorem ofJson_toJson_eq_stored (hvalid : request.validate = .ok ())
    (hdistinct : ∀ value ∈ request.values, value.DistinctKeys)
    (h : ∀ value ∈ request.values, value.Unmarked) : ofJson request.toJson = .ok request.stored := by
  rw [ofJson_toJson_iff, stored, List.forall₂_map_right_iff, List.forall₂_same]
  refine ⟨hvalid, rfl, fun operation hmem => Operation.received?_eq_stored ?_ ?_⟩
  · exact fun value hvalue => hdistinct value (mem_values.2 ⟨operation, hmem, hvalue⟩)
  · exact fun value hvalue => h value (mem_values.2 ⟨operation, hmem, hvalue⟩)

theorem withoutNulls_of_null_notMem (h : Json.null ∉ request.values) :
    request.withoutNulls = request := by
  have hkeep : ∀ operation ∈ request.operations, operation.withoutNull = operation := by
    intro operation hmem
    obtain ⟨op, path, value⟩ := operation
    cases value with
    | none => rfl
    | some value =>
      have hnull : value.isNull = false := by
        refine Bool.eq_false_iff.2 fun hnull => h ?_
        obtain rfl := eq_null_of_isNull hnull
        exact mem_values.2 ⟨_, hmem, rfl⟩
      simp [Operation.withoutNull, hnull]
  rw [withoutNulls, List.map_congr_left hkeep, List.map_id']

/-- A request that is read from a text comes back as it is stored. -/
theorem ofJson_toJson_of_parse {text : String} (h : parse text = .ok request) :
    ofJson request.toJson = .ok request.stored := by
  obtain ⟨hvalid, hproper⟩ := proper_of_parse h
  have hvalues : ∀ value ∈ request.values, value.Proper := by
    intro value hvalue
    obtain ⟨operation, hmem, hvalue⟩ := mem_values.1 hvalue
    exact hproper operation hmem value hvalue
  exact ofJson_toJson_eq_stored hvalid (fun value hvalue => (hvalues value hvalue).1)
    fun value hvalue => (hvalues value hvalue).2

theorem stored_stored (request : Request) : request.stored.stored = request.stored := by
  have hoperation : ∀ operation : Operation, operation.stored.stored = operation.stored := by
    intro operation
    obtain ⟨op, path, value⟩ := operation
    cases value with
    | none => rfl
    | some value =>
      cases hnull : value.isNull with
      | true => simp [Operation.stored, Operation.withoutNull, hnull]
      | false =>
        simp [Operation.stored, Operation.withoutNull, hnull, isNull_stored,
          Json.stored_stored]
  simp [stored, hoperation]

theorem exists_of_mem_values_stored {value : Json} (h : value ∈ request.stored.values) :
    ∃ old ∈ request.values, value = old.stored := by
  obtain ⟨_, hmem, hvalue⟩ := mem_values.1 h
  obtain ⟨operation, hoperation, rfl⟩ := List.mem_map.1 hmem
  obtain ⟨old, hold, rfl⟩ := Option.map_eq_some_iff.1 hvalue
  obtain ⟨kept, hkept, hold⟩ := Option.bind_eq_some_iff.1 hold
  split at hold
  · simp at hold
  · obtain rfl := Option.some.inj hold
    exact ⟨kept, mem_values.2 ⟨operation, hoperation, hkept⟩, rfl⟩

/-- A request that has come back once comes back unchanged. -/
theorem ofJson_toJson_stored (hvalid : request.validate = .ok ())
    (hdistinct : ∀ value ∈ request.values, value.DistinctKeys)
    (h : ∀ value ∈ request.values, value.Unmarked) :
    ofJson request.stored.toJson = .ok request.stored := by
  have hstored : ofJson request.stored.toJson = .ok request.stored.stored := by
    refine ofJson_toJson_eq_stored hvalid (fun value hvalue => ?_) fun value hvalue => ?_
    · obtain ⟨old, hold, rfl⟩ := exists_of_mem_values_stored hvalue
      exact (hdistinct old hold).stored
    · obtain ⟨old, hold, rfl⟩ := exists_of_mem_values_stored hvalue
      exact (h old hold).stored
  rwa [stored_stored] at hstored

/-- A valid request comes back with null values absent and all else unchanged exactly if no object in
its values has the reserved name in front and all numbers are spelled as they are stored. Without the
reserved name it comes back as it is stored. If it comes back unchanged it is converted alike. -/
theorem reread_toJson (hvalid : request.validate = .ok ())
    (hdistinct : ∀ value ∈ request.values, value.DistinctKeys) :
    (ofJson request.toJson = .ok request.withoutNulls ↔
      ∀ value ∈ request.values, value.Unmarked ∧ value.stored = value) ∧
    ((∀ value ∈ request.values, value.Unmarked) →
      ofJson request.toJson = .ok request.stored ∧
        ofJson request.stored.toJson = .ok request.stored) ∧
    ((∀ value ∈ request.values, value.Unmarked ∧ value.stored = value) →
      Json.null ∉ request.values →
      ∃ reread, ofJson request.toJson = .ok reread ∧ ∀ config document,
        Engine.convertRequest config document reread =
          Engine.convertRequest config document request) := by
  have hkept := ofJson_toJson_eq_withoutNulls_iff hvalid hdistinct
  refine ⟨hkept, fun h => ?_, fun h hnull => ?_⟩
  · exact ⟨ofJson_toJson_eq_stored hvalid hdistinct h, ofJson_toJson_stored hvalid hdistinct h⟩
  · rw [withoutNulls_of_null_notMem hnull] at hkept
    exact ⟨request, hkept.2 h, fun _ _ => rfl⟩

/-- Three operations of which one has a null value, a number that is spelled anew, and nested values. -/
theorem reread_toJson_sample :
    let value : Json := .obj [("n", .num "-1.50"), ("tags", .arr [.num "1e+400", .null])]
    let mixed : Request := ⟨["URN:ietf:params:scim:api:messages:2.0:patchop"],
      [⟨.add, none, some value⟩, ⟨.replace, some "x", some .null⟩, ⟨.remove, some "y", none⟩]⟩
    let small : Request := ⟨[], [⟨.add, some "x", some (.num "0.000001")⟩]⟩
    let nested : Request := ⟨[], [⟨.add, none, some value⟩]⟩
    mixed.validate = .ok () ∧ (∀ value ∈ mixed.values, value.DistinctKeys) ∧
      ofJson mixed.toJson = .ok ⟨["URN:ietf:params:scim:api:messages:2.0:patchop"],
        [⟨.add, none, some value⟩, ⟨.replace, some "x", none⟩, ⟨.remove, some "y", none⟩]⟩ ∧
      small.validate = .ok () ∧ (∀ value ∈ small.values, value.DistinctKeys) ∧
      ofJson small.toJson = .ok ⟨[], [⟨.add, some "x", some (.num "1e-6")⟩]⟩ ∧
      nested.validate = .ok () ∧ (∀ value ∈ nested.values, value.DistinctKeys) ∧
      ∃ reread, ofJson nested.toJson = .ok reread ∧ ∀ config document,
        Engine.convertRequest config document reread =
          Engine.convertRequest config document nested := by
  intro value mixed small nested
  have htags : ∀ item ∈ [Json.num "1e+400", .null], item.Proper := by
    simp [Proper, DistinctKeys.num, DistinctKeys.null, Unmarked.num, Unmarked.null]
  have hmembers : ∀ member ∈ [("n", Json.num "-1.50"), ("tags", .arr [.num "1e+400", .null])],
      member.2.Proper :=
    List.forall_mem_cons.2 ⟨⟨.num _, .num _⟩, List.forall_mem_singleton.2
      ⟨.arr fun item hitem => (htags item hitem).1, .arr fun item hitem => (htags item hitem).2⟩⟩
  have hdistinct : value.DistinctKeys :=
    .obj (by decide) fun member hmember => (hmembers member hmember).1
  have hunmarked : value.Unmarked := .obj (by decide) fun member hmember => (hmembers member hmember).2
  have hstored : value.stored = value := by decide +kernel
  have hmixed : ∀ other ∈ mixed.values,
      other.DistinctKeys ∧ other.Unmarked ∧ other.stored = other := by
    simp only [mixed, values, List.filterMap_cons, List.filterMap_nil, List.forall_mem_cons]
    exact ⟨⟨hdistinct, hunmarked, hstored⟩, ⟨.null, .null, rfl⟩, by simp⟩
  have hsmall : ∀ other ∈ small.values, other.DistinctKeys ∧ other.Unmarked := by
    simp [small, values, DistinctKeys.num, Unmarked.num]
  have hnested : ∀ other ∈ nested.values,
      other.DistinctKeys ∧ other.Unmarked ∧ other.stored = other := by
    simp only [nested, values, List.filterMap_cons, List.filterMap_nil, List.forall_mem_cons]
    exact ⟨⟨hdistinct, hunmarked, hstored⟩, by simp⟩
  have hmixedValid : mixed.validate = .ok () := by rfl
  have hsmallValid : small.validate = .ok () := by rfl
  have hnestedValid : nested.validate = .ok () := by rfl
  obtain ⟨hmixedKept, -, -⟩ := reread_toJson hmixedValid fun other hother => (hmixed other hother).1
  obtain ⟨-, hsmallStored, -⟩ := reread_toJson hsmallValid fun other hother => (hsmall other hother).1
  obtain ⟨-, -, hnestedAlike⟩ := reread_toJson hnestedValid fun other hother => (hnested other hother).1
  have hspelled : small.stored = ⟨[], [⟨.add, some "x", some (.num "1e-6")⟩]⟩ := by decide +kernel
  refine ⟨hmixedValid, fun other hother => (hmixed other hother).1, ?_, hsmallValid,
    fun other hother => (hsmall other hother).1, ?_, hnestedValid,
    fun other hother => (hnested other hother).1, ?_⟩
  · exact hmixedKept.2 fun other hother => (hmixed other hother).2
  · rw [← hspelled]
    exact (hsmallStored fun other hother => (hsmall other hother).2).1
  · exact hnestedAlike (fun other hother => (hnested other hother).2) (by simp [nested, values, value])

/-- A number of forty digits is written out and comes back in scientific notation. -/
theorem reread_spells_number :
    let request : Request :=
      ⟨[], [⟨.add, some "x", some (.num "1000000000000000000000000000000000000000")⟩]⟩
    let reread : Request := ⟨[], [⟨.add, some "x", some (.num "1e+39")⟩]⟩
    request.validate = .ok () ∧ ofJson request.toJson = .ok reread ∧
      reread ≠ request.withoutNulls ∧
      Engine.convertRequest {} (.obj []) reread ≠ Engine.convertRequest {} (.obj []) request :=
  ⟨by rfl, by decide +kernel, by decide +kernel, by decide +kernel⟩

/-- An object with the reserved name in front that holds no number is not read at all. -/
example : ofJson (toJson ⟨[], [⟨.add, none, some (.obj [(Source.numberMark, .str "x")])⟩]⟩) =
    .error (.invalidRequest (.undecodable .malformed)) := by decide +kernel

end Request

end Scim
