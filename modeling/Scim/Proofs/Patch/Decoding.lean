import Scim.Patch.Request
import Scim.Proofs.Json.Reading
import Scim.Proofs.Result

/-!
Requests that are read, from a text or from a value. They are valid, and no object in the values of
their operations has a name twice or the reserved name in front.
-/
namespace Scim

namespace Json.Source

variable {limit : Option Nat} {decodePath : Source → Except DecodeFault (Option String)}

theorem decodeOption_of_ne {α : Type} {decode : Source → Except DecodeFault α} {source : Source}
    (h : source ≠ null) : decodeOption decode source = (decode source).map some := by
  cases source with
  | null => exact absurd rfl h
  | _ => rfl

theorem decodeValue_eq_ok_iff {source : Source} {value : Json} :
    decodeValue limit source = .ok value ↔ source.value? limit = some value := by
  rw [decodeValue]
  cases source.value? limit with
  | none => simp
  | some found => simp

theorem proper_of_decodeOption {source : Source} {read : Option Json}
    (h : decodeOption (decodeValue limit) source = .ok read) :
    ∀ value ∈ read, value.Proper := by
  by_cases hnull : source = null
  · obtain rfl : none = read := Except.ok.inj (hnull ▸ h)
    simp
  · rw [decodeOption_of_ne hnull, Except.map_eq_ok_iff] at h
    obtain ⟨value, hvalue, rfl⟩ := h
    intro other hother
    obtain rfl : value = other := by simpa using hother
    exact proper_of_value? (decodeValue_eq_ok_iff.1 hvalue)

theorem exists_of_once {α : Type} {name : String} {before after : Option α}
    {decoded : Except DecodeFault α} (h : once name before decoded = .ok after) :
    ∃ a, decoded = .ok a ∧ after = some a := by
  unfold once at h
  split at h
  · simp at h
  · obtain ⟨a, ha, rfl⟩ := Except.map_eq_ok_iff.1 h
    exact ⟨a, ha, rfl⟩

def Draft.Proper (draft : Draft) : Prop :=
  ∀ value ∈ draft.value.join, value.Proper

theorem Draft.Proper.addMember {draft next : Draft} {member : Option String × Source}
    (hdraft : draft.Proper) (h : draft.addMember decodePath limit member = .ok next) : next.Proper := by
  unfold Draft.addMember at h
  split at h
  · simp at h
  · split at h
    · obtain ⟨op, -, hnext⟩ := Except.bind_eq_ok_iff.1 h
      rw [← Except.ok.inj hnext]
      exact hdraft
    split at h
    · obtain ⟨path, -, hnext⟩ := Except.bind_eq_ok_iff.1 h
      rw [← Except.ok.inj hnext]
      exact hdraft
    split at h
    · obtain ⟨value, hvalue, hnext⟩ := Except.bind_eq_ok_iff.1 h
      obtain ⟨read, hread, rfl⟩ := exists_of_once hvalue
      rw [← Except.ok.inj hnext]
      exact proper_of_decodeOption hread
    · obtain ⟨-, -, hnext⟩ := Except.bind_eq_ok_iff.1 h
      rw [← Except.ok.inj hnext]
      exact hdraft

/-- Whatever order the members come in, the value that is read is proper. -/
theorem proper_of_decodeDraft {needed : Nat} {source : Source} {draft : Draft}
    (h : source.decodeDraft decodePath needed limit = .ok draft) : draft.Proper := by
  have hstart : Draft.Proper {} := by simp [Draft.Proper]
  unfold decodeDraft at h
  split at h
  · exact Except.foldlM_preserves (fun _ _ _ _ hdraft hnext => hdraft.addMember hnext) hstart h
  · obtain ⟨found, hfound, hdraft⟩ := Except.bind_eq_ok_iff.1 h
    split at hdraft
    · rw [← Except.ok.inj hdraft]
      exact Except.foldlM_preserves (fun _ _ _ _ hdraft hnext => hdraft.addMember hnext) hstart hfound
    · simp [throw, throwThe, MonadExceptOf.throw] at hdraft
  · simp at h

theorem proper_of_decodeOperation {source : Source} {operation : Operation}
    (h : source.decodeOperation limit = .ok operation) :
    ∀ value ∈ operation.value, value.Proper := by
  obtain ⟨draft, hdraft, h⟩ := Except.bind_eq_ok_iff.1 h
  obtain ⟨op, -, h⟩ := Except.bind_eq_ok_iff.1 h
  rw [← Except.ok.inj h]
  exact proper_of_decodeDraft hdraft

def RequestDraft.Proper (draft : RequestDraft) : Prop :=
  ∀ operations ∈ draft.operations, ∀ operation ∈ operations,
    ∀ value ∈ operation.value, value.Proper

theorem proper_of_decodeList {source : Source} {operations : List Operation}
    (h : decodeList (decodeOperation limit) source = .ok operations) :
    ∀ operation ∈ operations, ∀ value ∈ operation.value, value.Proper := by
  unfold decodeList at h
  split at h
  · have hitems := Except.mapM_eq_ok_iff.1 h
    clear h
    induction hitems with
    | nil => simp
    | cons hitem _ ih => exact List.forall_mem_cons.2 ⟨proper_of_decodeOperation hitem, ih⟩
  · simp at h

theorem RequestDraft.Proper.addMember {draft next : RequestDraft} {member : Option String × Source}
    (hdraft : draft.Proper) (h : draft.addMember limit member = .ok next) : next.Proper := by
  unfold RequestDraft.addMember at h
  split at h
  · simp at h
  · split at h
    · obtain ⟨schemas, -, hnext⟩ := Except.bind_eq_ok_iff.1 h
      rw [← Except.ok.inj hnext]
      exact hdraft
    split at h
    · obtain ⟨operations, hoperations, hnext⟩ := Except.bind_eq_ok_iff.1 h
      obtain ⟨found, hfound, rfl⟩ := exists_of_once hoperations
      rw [← Except.ok.inj hnext]
      intro operations hmem
      rw [← Option.some.inj hmem]
      exact proper_of_decodeList hfound
    · obtain ⟨-, -, hnext⟩ := Except.bind_eq_ok_iff.1 h
      rw [← Except.ok.inj hnext]
      exact hdraft

/-- All values of a decoded request are proper. -/
theorem proper_of_decodeRequest {source : Source} {request : Request}
    (h : source.decodeRequest limit = .ok request) :
    ∀ operation ∈ request.operations, ∀ value ∈ operation.value,
      value.Proper := by
  have hstart : RequestDraft.Proper {} := by simp [RequestDraft.Proper]
  obtain ⟨draft, hdraft, h⟩ := Except.bind_eq_ok_iff.1 h
  have hproper : draft.Proper := by
    unfold decodeRequestDraft at hdraft
    split at hdraft
    · exact Except.foldlM_preserves (fun _ _ _ _ hdraft hnext => hdraft.addMember hnext) hstart hdraft
    · obtain ⟨found, hfound, hdraft⟩ := Except.bind_eq_ok_iff.1 hdraft
      obtain ⟨-, rfl⟩ := Except.ite_eq_ok_iff.1 hdraft
      exact Except.foldlM_preserves (fun _ _ _ _ hdraft hnext => hdraft.addMember hnext) hstart hfound
    · simp at hdraft
  obtain ⟨operations, hoperations, h⟩ := Except.bind_eq_ok_iff.1 h
  rw [← Except.ok.inj h]
  unfold required at hoperations
  split at hoperations
  · rename_i found hfound
    rw [← Except.ok.inj hoperations]
    exact hproper found hfound
  · simp at hoperations

end Json.Source

namespace Request

variable {request : Request}

theorem accept_eq_ok_iff {decoded : Except DecodeFault Request} :
    accept decoded = .ok request ↔ decoded = .ok request ∧ request.validate = .ok () := by
  cases decoded with
  | error fault => simp [accept]
  | ok found =>
    simp only [accept, Except.bind_eq_ok_iff, Except.ok.injEq, pure, Except.pure]
    constructor
    · rintro ⟨⟨⟩, hvalid, rfl⟩
      exact ⟨rfl, hvalid⟩
    · rintro ⟨rfl, hvalid⟩
      exact ⟨(), hvalid, rfl⟩

/-- A request that is read from a text is valid and brings proper values. -/
theorem proper_of_parse {text : String} (h : parse text = .ok request) :
    request.validate = .ok () ∧ ∀ operation ∈ request.operations, ∀ value ∈ operation.value,
      value.Proper := by
  rw [parse] at h
  obtain ⟨hdecoded, hvalid⟩ := accept_eq_ok_iff.1 h
  obtain ⟨found, hfound, hcomplete⟩ := Except.bind_eq_ok_iff.1 hdecoded
  obtain ⟨-, rfl⟩ := Except.ite_eq_ok_iff.1 hcomplete
  exact ⟨hvalid, Json.Source.proper_of_decodeRequest hfound⟩

/-- So is a request that is read from a value. -/
theorem proper_of_ofJson {value : Json} (h : ofJson value = .ok request) :
    request.validate = .ok () ∧ ∀ operation ∈ request.operations, ∀ value ∈ operation.value,
      value.Proper := by
  obtain ⟨hdecoded, hvalid⟩ := accept_eq_ok_iff.1 h
  exact ⟨hvalid, Json.Source.proper_of_decodeRequest hdecoded⟩

end Request

end Scim
