import Scim.Text.Basic

/-!
Number literals: an optional sign, digits, an optional fraction and an optional exponent. A literal
may be spelled with the digits of any script; which of them have a value is not decided here.
-/
namespace Scim

/-- The parts of a number literal. An absent fraction or exponent has no digits. -/
structure Numeral where
  negative : Bool
  whole : List Char
  fraction : List Char
  exponentNegative : Bool
  exponent : List Char
  deriving DecidableEq, Repr

namespace Numeral

/-- An optional sign; true stands for minus. -/
def readSign : List Char → Bool × List Char
  | '-' :: cs => (true, cs)
  | '+' :: cs => (false, cs)
  | cs => (false, cs)

def readDigits (cs : List Char) : Option (List Char × List Char) :=
  match cs.takeWhile Text.isDecimalDigit with
  | [] => none
  | ds => some (ds, cs.dropWhile Text.isDecimalDigit)

def readFraction : List Char → Option (List Char × List Char)
  | '.' :: cs => readDigits cs
  | cs => some ([], cs)

def readExponent : List Char → Option (Bool × List Char)
  | [] => some (false, [])
  | c :: cs =>
    if c = 'e' ∨ c = 'E' then
      match readDigits (readSign cs).2 with
      | some (ds, []) => some ((readSign cs).1, ds)
      | _ => none
    else none

def read (text : List Char) : Option Numeral := do
  let (whole, cs) ← readDigits (readSign text).2
  let (fraction, cs) ← readFraction cs
  let (exponentNegative, exponent) ← readExponent cs
  return ⟨(readSign text).1, whole, fraction, exponentNegative, exponent⟩

end Numeral

end Scim
