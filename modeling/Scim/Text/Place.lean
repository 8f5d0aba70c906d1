/-!
Places in a text, counted in UTF-8 bytes as error messages count them. A place is shown with the
piece of text that starts there.
-/
namespace Scim.Text

def byteCount : List Char → Nat
  | [] => 0
  | c :: cs => c.utf8Size + byteCount cs

/-- What is left after the first `n` bytes; none if they end inside a character or past the end. -/
def afterBytes : List Char → Nat → Option (List Char)
  | cs, 0 => some cs
  | [], _ + 1 => none
  | c :: cs, n + 1 => if c.utf8Size ≤ n + 1 then afterBytes cs (n + 1 - c.utf8Size) else none

def fragmentLength : Nat := 24

structure Place where
  position : Nat
  fragment : String
  deriving DecidableEq, Repr

/-- A position past the end stands for the end. The fragment is empty when the position falls inside
a character. -/
def Place.of (text : String) (position : Nat) : Place :=
  let position := min position (byteCount text.toList)
  ⟨position, String.ofList (((afterBytes text.toList position).getD []).take fragmentLength)⟩

@[simp] theorem byteCount_nil : byteCount [] = 0 := rfl

@[simp] theorem byteCount_cons (c : Char) (cs : List Char) :
    byteCount (c :: cs) = c.utf8Size + byteCount cs := rfl

@[simp] theorem byteCount_append (cs ds : List Char) :
    byteCount (cs ++ ds) = byteCount cs + byteCount ds := by
  induction cs with
  | nil => simp only [List.nil_append, byteCount_nil, Nat.zero_add]
  | cons c cs ih => simp only [List.cons_append, byteCount_cons, ih, Nat.add_assoc]

/-- Cutting after the bytes of a whole number of characters leaves the other characters. -/
theorem afterBytes_byteCount (cs ds : List Char) :
    afterBytes (cs ++ ds) (byteCount cs) = some ds := by
  induction cs with
  | nil => simp [afterBytes]
  | cons c cs ih =>
    obtain ⟨n, hn⟩ : ∃ n, c.utf8Size + byteCount cs = n + 1 :=
      ⟨c.utf8Size + byteCount cs - 1, by have := c.utf8Size_pos; omega⟩
    have hc : c.utf8Size ≤ n + 1 := by omega
    have hrest : n + 1 - c.utf8Size = byteCount cs := by omega
    simp only [List.cons_append, byteCount_cons, hn, afterBytes, hc, if_true, hrest, ih]

/-- A position behind some characters shows the characters after them. -/
theorem Place.of_byteCount (cs ds : List Char) :
    Place.of (String.ofList (cs ++ ds)) (byteCount cs) =
      ⟨byteCount cs, String.ofList (ds.take fragmentLength)⟩ := by
  have hmin := Nat.min_eq_left (Nat.le_add_right (byteCount cs) (byteCount ds))
  simp only [Place.of, String.toList_ofList, byteCount_append, hmin, afterBytes_byteCount,
    Option.getD_some]

end Scim.Text
