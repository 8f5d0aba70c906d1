import Scim.Number.Numeral
import Scim.Number.Double

/-!
The spelling of numbers in a request that is read from a JSON value and not from a text. An integer
of up to 128 bits and a decimal that a double is printed as are stored by value and spelled anew;
every other number stays as it is spelled.
-/
namespace Scim.Json

/-- Scientific notation: a point behind the first digit and the power of ten that this digit
counts. -/
def scientific (digits : List Char) (power : Int) : List Char :=
  digits.take 1 ++ (if 1 < digits.length then '.' :: digits.drop 1 else []) ++
    'e' :: (if power < 0 then '-' else '+') :: Nat.toDigits 10 power.natAbs

/-- An integer of 128 bits: one from -2 ^ 127 to 2 ^ 128 - 1. -/
def isWord (numeral : Numeral) : Bool :=
  let value := Nat.ofDigitChars 10 numeral.whole 0
  numeral.fraction.isEmpty && numeral.exponent.isEmpty && numeral.whole.length ≤ 39 &&
    (if numeral.negative then value ≤ 170141183460469231731687303715884105728
      else value < 340282366920938463463374607431768211456)

/-- The digits of a numeral between its needless zeros, and the power of ten that the last of them
counts. -/
def significant (numeral : Numeral) : List Char × Int :=
  let digits := (numeral.whole ++ numeral.fraction).dropWhile (· == '0')
  let zeros := (digits.reverse.takeWhile (· == '0')).length
  (digits.take (digits.length - zeros), zeros - numeral.fraction.length)

/-- The numeral is spelled out as a double is. A double never needs more than 17 digits. -/
def spellsDouble (numeral : Numeral) : Bool :=
  let (digits, exponent) := significant numeral
  (numeral.whole ++ numeral.fraction).all Char.isDigit && numeral.exponent.isEmpty &&
    numeral.fraction.getLast? != some '0' && digits.length ≤ 17 &&
    (exponent + digits.length - 1).natAbs ≤ 400 &&
    Double.isPrinted (Nat.ofDigitChars 10 digits 0) exponent

def lowered (digits : List Char) : List Char :=
  digits.modify (digits.length - 1) fun c => Char.ofNat (c.toNat - 1)

/-- The text that a double is stored as, if the numeral is spelled as the double is. Spelling out
rounds a half up, and storing rounds it to even. The notation is scientific below 10 ^ -5 and from
10 ^ 16 on; whole numbers in between are words. -/
def storedDouble? (numeral : Numeral) : Option (List Char) :=
  let (digits, exponent) := significant numeral
  let power := exponent + digits.length - 1
  let halfway := Double.isHalfway (Nat.ofDigitChars 10 digits 0) exponent
  let sign := if numeral.negative then ['-'] else []
  if spellsDouble numeral then
    if power < -5 || 16 ≤ power then
      some (sign ++ scientific (if halfway then lowered digits else digits) power)
    else if halfway && !numeral.fraction.isEmpty then
      some (sign ++ numeral.whole ++ '.' :: lowered numeral.fraction)
    else none
  else none

/-- The spelling under which a number of a value is stored in a request. -/
def respelled (spelling : String) : String :=
  match Numeral.read spelling.toList with
  | none => spelling
  | some numeral =>
    if isWord numeral then (if spelling = "-0" then "0" else spelling)
    else match storedDouble? numeral with
      | some cs => String.ofList cs
      | none => spelling

end Scim.Json
