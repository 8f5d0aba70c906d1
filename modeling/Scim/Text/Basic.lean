/-!
Characters and texts as filters, paths and operations see them: white space and decimal digits of all
scripts, letters compared without regard to ASCII case, the order by code point with the substring
tests, and quoted literals, in which every quote and backslash has a backslash in front.
-/
namespace Scim.Text

/-- First and last code point of each run of white space, which is Unicode's White_Space property. Zero
width spaces and the byte order mark do not have it. -/
def blankRuns : List (Nat × Nat) :=
  [(0x20, 0x20), (0x09, 0x0D), (0x85, 0x85), (0xA0, 0xA0), (0x1680, 0x1680), (0x2000, 0x200A),
   (0x2028, 0x2029), (0x202F, 0x202F), (0x205F, 0x205F), (0x3000, 0x3000)]

def isBlank (c : Char) : Bool :=
  blankRuns.any fun run => run.1 ≤ c.toNat && c.toNat ≤ run.2

/-- The digits of a script, those of category Nd, are a run of ten that starts with zero. -/
def digitZeros : List Nat :=
  [0x30, 0x660, 0x6F0, 0x7C0, 0x966, 0x9E6, 0xA66, 0xAE6, 0xB66, 0xBE6, 0xC66, 0xCE6, 0xD66,
   0xDE6, 0xE50, 0xED0, 0xF20, 0x1040, 0x1090, 0x17E0, 0x1810, 0x1946, 0x19D0, 0x1A80, 0x1A90,
   0x1B50, 0x1BB0, 0x1C40, 0x1C50, 0xA620, 0xA8D0, 0xA900, 0xA9D0, 0xA9F0, 0xAA50, 0xABF0, 0xFF10,
   0x104A0, 0x10D30, 0x10D40, 0x11066, 0x110F0, 0x11136, 0x111D0, 0x112F0, 0x11450, 0x114D0,
   0x11650, 0x116C0, 0x116D0, 0x116DA, 0x11730, 0x118E0, 0x11950, 0x11BF0, 0x11C50, 0x11D50,
   0x11DA0, 0x11F50, 0x16130, 0x16A60, 0x16AC0, 0x16B50, 0x16D70, 0x1CCF0, 0x1D7CE, 0x1D7D8,
   0x1D7E2, 0x1D7EC, 0x1D7F6, 0x1E140, 0x1E2F0, 0x1E4F0, 0x1E5F1, 0x1E950, 0x1FBF0]

def isDecimalDigit (c : Char) : Bool :=
  digitZeros.any fun start => start ≤ c.toNat && c.toNat < start + 10

theorem isDecimalDigit_of_isDigit {c : Char} (h : c.isDigit = true) : isDecimalDigit c = true := by
  simp only [Char.isDigit, Bool.and_eq_true, decide_eq_true_eq, ge_iff_le, UInt32.le_iff_toNat_le]
    at h
  refine List.any_eq_true.2 ⟨0x30, List.mem_cons_self, ?_⟩
  have hlow : 48 ≤ c.val.toNat := h.1
  have hhigh : c.val.toNat ≤ 57 := h.2
  simp only [Bool.and_eq_true, decide_eq_true_eq, Char.toNat]
  omega

def folded (s : String) : List Char := s.toList.map Char.toLower

def sameFolded (a b : String) : Bool := folded a == folded b

theorem sameFolded_iff {a b : String} : sameFolded a b = true ↔ folded a = folded b := by
  simp only [sameFolded, beq_iff_eq]

theorem sameFolded_refl (a : String) : sameFolded a a = true := sameFolded_iff.2 rfl

theorem sameFolded_symm {a b : String} (h : sameFolded a b = true) : sameFolded b a = true :=
  sameFolded_iff.2 (sameFolded_iff.1 h).symm

theorem sameFolded_trans {a b c : String} (hab : sameFolded a b = true)
    (hbc : sameFolded b c = true) : sameFolded a c = true :=
  sameFolded_iff.2 ((sameFolded_iff.1 hab).trans (sameFolded_iff.1 hbc))

/-- The first difference decides; a text comes before its own continuations. -/
def order : List Char → List Char → Ordering
  | [], [] => .eq
  | [], _ :: _ => .lt
  | _ :: _, [] => .gt
  | a :: as, b :: bs => (compare a.toNat b.toNat).then (order as bs)

def occursIn (part : List Char) : List Char → Bool
  | [] => part.isEmpty
  | c :: cs => part.isPrefixOf (c :: cs) || occursIn part cs

/-- Only equal texts compare as equal. -/
theorem order_eq_iff (a b : List Char) : order a b = .eq ↔ a = b := by
  induction a generalizing b with
  | nil => cases b <;> simp [order]
  | cons x xs ih =>
    cases b with
    | nil => simp [order]
    | cons y ys =>
      simp only [order, Ordering.then_eq_eq, Nat.compare_eq_eq, ih, List.cons.injEq, Char.toNat_inj]

/-- A part occurs in a text exactly if it is an infix. -/
theorem occursIn_iff {part whole : List Char} : occursIn part whole = true ↔ part <:+: whole := by
  induction whole with
  | nil => simp [occursIn]
  | cons c cs ih =>
    simp only [occursIn, Bool.or_eq_true, List.isPrefixOf_iff_prefix, ih, List.infix_cons_iff]

def backslashed (special : Char → Bool) (cs : List Char) : List Char :=
  cs.flatMap fun c => if special c then ['\\', c] else [c]

def isQuoteSpecial (c : Char) : Bool := c == '"' || c == '\\'

def quoted (s : String) : String :=
  String.ofList ('"' :: backslashed isQuoteSpecial s.toList ++ ['"'])

@[simp] theorem backslashed_nil (special : Char → Bool) : backslashed special [] = [] := rfl

theorem backslashed_cons (special : Char → Bool) (c : Char) (cs : List Char) :
    backslashed special (c :: cs) =
      (if special c then ['\\', c] else [c]) ++ backslashed special cs := by
  simp only [backslashed, List.flatMap_cons]

@[simp] theorem toList_quoted (s : String) :
    (quoted s).toList = '"' :: backslashed isQuoteSpecial s.toList ++ ['"'] := by
  simp only [quoted, String.toList_ofList]

end Scim.Text
