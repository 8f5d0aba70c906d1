import Scim.Text.Basic

/-!
The order of texts is the lexicographic order of their code points, so it is a linear order. It is also
the order by UTF-8 bytes: the encodings of two characters differ at some byte of both, and at the first
one the greater character has the greater byte.
-/
namespace Scim.Text

/-- The order is the lexicographic one. -/
theorem order_eq_compareLex (as bs : List Char) :
    order as bs = List.compareLex (compareOn Char.toNat) as bs := by
  induction as generalizing bs with
  | nil => cases bs <;> rfl
  | cons a as ih =>
    cases bs with
    | nil => rfl
    | cons b bs =>
      rw [order, ih, List.compareLex_cons_cons]
      rfl

instance : Std.TransCmp order := by
  have h : order = List.compareLex (compareOn Char.toNat) :=
    funext fun as => funext (order_eq_compareLex as)
  rw [h]
  infer_instance

instance : Std.LawfulEqCmp order where
  compare_self := (order_eq_iff _ _).2 rfl
  eq_of_compare h := (order_eq_iff _ _).1 h

def bytes (s : String) : List UInt8 := s.toByteArray.data.toList

theorem bytes_eq_flatMap (s : String) : bytes s = s.toList.flatMap String.utf8EncodeChar := by
  have hbytes := String.toByteArray_ofList (l := s.toList)
  rw [String.ofList_toList] at hbytes
  rw [bytes, hbytes, List.utf8Encode, List.data_toByteArray]

variable {a b : Nat} {as bs : List UInt8}

theorem cons_byte_lt (hb : b < 256) (hle : a ≤ b) (htail : a = b → as < bs) :
    UInt8.ofNat a :: as < UInt8.ofNat b :: bs := by
  rw [List.cons_lt_cons_iff, UInt8.lt_iff_toNat_lt, UInt8.toNat_ofNat', UInt8.toNat_ofNat']
  by_cases heq : a = b
  · exact .inr ⟨by rw [heq], htail heq⟩
  · refine .inl ?_
    omega

theorem cons_byte_lt_of_lt (hb : b < 256) (hlt : a < b) (as bs : List UInt8) :
    UInt8.ofNat a :: as < UInt8.ofNat b :: bs :=
  cons_byte_lt hb (Nat.le_of_lt hlt) fun heq => absurd heq (Nat.ne_of_lt hlt)

theorem toNat_lt (c : Char) : c.toNat < 1114112 := by
  rcases c.valid with h | h
  · exact Nat.lt_trans h (by decide)
  · exact h.2

/-- The lesser of two characters has the lesser bytes, whatever follows. -/
theorem utf8EncodeChar_append_lt {c d : Char} (h : c.toNat < d.toNat) (as bs : List UInt8) :
    String.utf8EncodeChar c ++ as < String.utf8EncodeChar d ++ bs := by
  have hc : c.val.toNat = c.toNat := rfl
  have hd : d.val.toNat = d.toNat := rfl
  have hmax := toNat_lt d
  unfold String.utf8EncodeChar
  simp only [hc, hd]
  split
  · split
    · exact cons_byte_lt_of_lt (by omega) h _ _
    split
    · exact cons_byte_lt_of_lt (by omega) (by omega) _ _
    split
    · exact cons_byte_lt_of_lt (by omega) (by omega) _ _
    · exact cons_byte_lt_of_lt (by omega) (by omega) _ _
  split
  · rw [if_neg (by omega)]
    split
    · exact cons_byte_lt (by omega) (by omega) fun _ => cons_byte_lt_of_lt (by omega) (by omega) _ _
    split
    · exact cons_byte_lt_of_lt (by omega) (by omega) _ _
    · exact cons_byte_lt_of_lt (by omega) (by omega) _ _
  split
  · rw [if_neg (by omega), if_neg (by omega)]
    split
    · exact cons_byte_lt (by omega) (by omega) fun _ => cons_byte_lt (by omega) (by omega) fun _ =>
        cons_byte_lt_of_lt (by omega) (by omega) _ _
    · exact cons_byte_lt_of_lt (by omega) (by omega) _ _
  · rw [if_neg (by omega), if_neg (by omega), if_neg (by omega)]
    exact cons_byte_lt (by omega) (by omega) fun _ => cons_byte_lt (by omega) (by omega) fun _ =>
      cons_byte_lt (by omega) (by omega) fun _ => cons_byte_lt_of_lt (by omega) (by omega) _ _

theorem append_lt_append_iff (cs : List UInt8) : cs ++ as < cs ++ bs ↔ as < bs := by
  induction cs with
  | nil => exact Iff.rfl
  | cons c cs ih => simp [ih]

theorem flatMap_lt_iff (cs ds : List Char) :
    cs.flatMap String.utf8EncodeChar < ds.flatMap String.utf8EncodeChar ↔ order cs ds = .lt := by
  induction cs generalizing ds with
  | nil =>
    cases ds with
    | nil => simp [order]
    | cons d ds =>
      obtain ⟨byte, rest, hbytes⟩ := List.exists_cons_of_ne_nil (String.utf8EncodeChar_ne_nil (c := d))
      simp [order, hbytes]
  | cons c cs ih =>
    cases ds with
    | nil => simp [order]
    | cons d ds =>
      rw [List.flatMap_cons, List.flatMap_cons, order, Ordering.then_eq_lt]
      rcases Nat.lt_trichotomy c.toNat d.toNat with hlt | heq | hgt
      · simp [utf8EncodeChar_append_lt hlt, Nat.compare_eq_lt.2 hlt]
      · obtain rfl := Char.toNat_inj.1 heq
        simp [append_lt_append_iff, ih]
      · have hnot := utf8EncodeChar_append_lt hgt (ds.flatMap String.utf8EncodeChar)
          (cs.flatMap String.utf8EncodeChar)
        simp [Nat.compare_eq_gt.2 hgt, List.lt_asymm hnot]

/-- Texts are ordered alike by bytes and by code points. -/
theorem bytes_lt_iff (a b : String) : bytes a < bytes b ↔ order a.toList b.toList = .lt := by
  rw [bytes_eq_flatMap, bytes_eq_flatMap, flatMap_lt_iff]

end Scim.Text
