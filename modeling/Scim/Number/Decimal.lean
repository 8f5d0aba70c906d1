import Scim.Number.Numeral

/-!
Exact decimal numbers. Two decimals are compared by value whatever their spelling, and a decimal is
printed in plain notation with no needless zero.
-/
namespace Scim

/-- The number `coefficient * 10 ^ (-scale)`. -/
structure Decimal where
  coefficient : Int
  scale : Int
  deriving DecidableEq, Repr

namespace Decimal

/-- The scales a literal may have: those of a signed word of 64 bits. -/
def InRange (scale : Int) : Prop := -9223372036854775808 ≤ scale ∧ scale ≤ 9223372036854775807

instance (scale : Int) : Decidable (InRange scale) := inferInstanceAs (Decidable (_ ∧ _))

def signed (negative : Bool) (n : Nat) : Int := if negative then -n else n

def ofNumeral? (n : Numeral) : Option Decimal :=
  let scale := n.fraction.length - signed n.exponentNegative (Nat.ofDigitChars 10 n.exponent 0)
  if (n.whole ++ n.fraction ++ n.exponent).all Char.isDigit ∧ InRange scale then
    some ⟨signed n.negative (Nat.ofDigitChars 10 (n.whole ++ n.fraction) 0), scale⟩
  else none

def read (text : String) : Option Decimal := (Numeral.read text.toList).bind ofNumeral?

def magnitude (d : Decimal) : Nat := d.coefficient.natAbs

/-- A nonzero decimal lies below ten to this power and not below ten to the power before it. -/
def leading (d : Decimal) : Int := (Nat.toDigits 10 d.magnitude).length - d.scale

/-- The order of two nonzero decimals without their signs. Coefficients are brought to one scale
only when the leading digits stand at the same place, so the powers of ten stay as small as the
coefficients. -/
def orderMagnitude (a b : Decimal) : Ordering :=
  (compare a.leading b.leading).then
    (compare (a.magnitude * Nat.pow 10 (b.scale - a.scale).toNat)
      (b.magnitude * Nat.pow 10 (a.scale - b.scale).toNat))

def order (a b : Decimal) : Ordering :=
  (compare a.coefficient.sign b.coefficient.sign).then
    (if a.coefficient = 0 then .eq
      else if 0 < a.coefficient then orderMagnitude a b
      else orderMagnitude b a)

/-- The digits of a number up to its last nonzero digit, and how many zeros follow. -/
def significant (n : Nat) : List Char × Nat :=
  let digits := Nat.toDigits 10 n
  let zeros := (digits.reverse.takeWhile (· == '0')).length
  (digits.take (digits.length - zeros), zeros)

def pointed (digits : List Char) (places : Nat) : List Char :=
  if places < digits.length then
    digits.take (digits.length - places) ++ '.' :: digits.drop (digits.length - places)
  else '0' :: '.' :: List.replicate (places - digits.length) '0' ++ digits

def plain (n : Nat) (scale : Int) : List Char :=
  if n = 0 then ['0'] else
    let (digits, zeros) := significant n
    let places := scale - zeros
    if places ≤ 0 then digits ++ List.replicate (-places).toNat '0'
    else pointed digits places.toNat

/-- Plain notation with trailing zeros dropped; zero has no sign. The text is idealised where it is
longer than any string can be, near the scale -2 ^ 63: there the program stops with a capacity
overflow. -/
def text (d : Decimal) : String :=
  String.ofList ((if d.coefficient < 0 then ['-'] else []) ++ plain d.magnitude d.scale)

end Decimal

end Scim
