/-!
Double-precision numbers, counted in steps of the least positive one, and the decimals that they are
printed as: the fewest digits that read back as the number, and of those the nearest ones. Where two
are as near, one printer takes the upper and the other the even ones.
-/
namespace Scim.Double

def stepsPerOne : Nat := Nat.pow 2 1074

def precision : Nat := 53

def tooManySteps : Nat := Nat.pow 2 2098

/-- The whole number nearest to a quotient. A half goes to the even neighbour. -/
def roundEven (num den : Nat) : Nat :=
  let down := num / den
  let rest := num % den
  if 2 * rest < den then down
  else if 2 * rest = den then down + down % 2
  else down + 1

/-- The steps of the double nearest to a quotient. -/
def nearest (num den : Nat) : Nat :=
  let unit := Nat.pow 2 ((num * stepsPerOne / den).log2 + 1 - precision)
  roundEven (num * stepsPerOne) (den * unit) * unit

def ofDecimal (digits : Nat) (exponent : Int) : Nat :=
  nearest (digits * Nat.pow 10 exponent.toNat) (Nat.pow 10 (-exponent).toNat)

/-- A number of steps as a quotient, measured in `10 ^ exponent`. -/
def inPowers (steps : Nat) (exponent : Int) : Nat × Nat :=
  (steps * Nat.pow 10 (-exponent).toNat, stepsPerOne * Nat.pow 10 exponent.toNat)

/-- Digits that do not end in zero are printed if neither neighbour with fewer digits reads back as
the same double and, of those next to the double that do, they are the nearer ones. A half goes up. -/
def isPrinted (digits : Nat) (exponent : Int) : Bool :=
  let steps := ofDecimal digits exponent
  let (num, den) := inPowers steps (exponent + 1)
  let fewer := num / den
  let (num, den) := inPowers steps exponent
  let below := num / den
  0 < steps && steps < tooManySteps &&
    ofDecimal fewer (exponent + 1) != steps && ofDecimal (fewer + 1) (exponent + 1) != steps &&
    -- below a power of two the doubles lie closer, and the nearer digits may read back as another one
    digits == (if 2 * (num % den) < den && ofDecimal below exponent == steps then below else below + 1)

/-- Odd digits with their double in the middle between them and the even ones below them, which read
back as the same double. -/
def isHalfway (digits : Nat) (exponent : Int) : Bool :=
  let steps := ofDecimal digits exponent
  let (num, den) := inPowers steps exponent
  digits % 2 == 1 && 2 * num + den == 2 * (den * digits) && ofDecimal (digits - 1) exponent == steps

end Scim.Double
