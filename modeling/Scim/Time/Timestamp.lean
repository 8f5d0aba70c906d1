import Scim.Time.DateTime

/-!
Timestamps, the Internet profile of ISO 8601 date-times. Reading comes in two spellings:
the strict one of filter literals and the lenient one of document values.
-/
namespace Scim.Timestamp

/-- The characters a spelling admits between date and time, for UTC, and as the minus sign. -/
structure Spelling where
  separators : List Char
  zulus : List Char
  minuses : List Char

def Spelling.strict : Spelling := ⟨['T'], ['Z'], ['-']⟩

def Spelling.lenient : Spelling := ⟨['T', 't', ' '], ['Z', 'z'], ['-', '\u2212']⟩

def readDigit : List Char → Option (Nat × List Char)
  | c :: cs => if c.isDigit then some (c.toNat - '0'.toNat, cs) else none
  | [] => none

def readNumber : Nat → Nat → List Char → Option (Nat × List Char)
  | 0, value, cs => some (value, cs)
  | width + 1, value, cs => do
    let (digit, cs) ← readDigit cs
    readNumber width (10 * value + digit) cs

def readOneOf (allowed : List Char) : List Char → Option (List Char)
  | c :: cs => if c ∈ allowed then some cs else none
  | [] => none

def readDate (cs : List Char) : Option (Date × List Char) := do
  let (year, cs) ← readNumber 4 0 cs
  let cs ← readOneOf ['-'] cs
  let (month, cs) ← readNumber 2 0 cs
  let cs ← readOneOf ['-'] cs
  let (day, cs) ← readNumber 2 0 cs
  return (⟨year, month, day⟩, cs)

/-- A point and at least one digit, as nanoseconds; digits after the ninth count for nothing. -/
def readFraction : List Char → Option (Nat × List Char)
  | '.' :: cs =>
    match cs.takeWhile Char.isDigit with
    | [] => none
    | ds =>
      some (Nat.ofDigitChars 10 ((ds ++ List.replicate 9 '0').take 9) 0, cs.dropWhile Char.isDigit)
  | cs => some (0, cs)

def readMinutes (cs : List Char) : Option (Nat × List Char) := do
  let (hour, cs) ← readNumber 2 0 cs
  let cs ← readOneOf [':'] cs
  let (minute, cs) ← readNumber 2 0 cs
  if minute < 60 then return (hour * 60 + minute, cs) else none

def readOffset (spelling : Spelling) : List Char → Option Int
  | [] => none
  | c :: cs =>
    if c ∈ spelling.zulus then if cs = [] then some 0 else none
    else match readMinutes cs with
      | some (minutes, []) =>
        if c = '+' then some minutes
        else if c ∈ spelling.minuses then some (-minutes)
        else none
      | _ => none

def read (spelling : Spelling) (text : String) : Option DateTime := do
  let (date, cs) ← readDate text.toList
  let cs ← readOneOf spelling.separators cs
  let (minute, cs) ← readMinutes cs
  let cs ← readOneOf [':'] cs
  let (second, cs) ← readNumber 2 0 cs
  let (nanosecond, cs) ← readFraction cs
  let offset ← readOffset spelling cs
  let clock : Clock := ⟨date, minute, second, nanosecond⟩
  if h : clock.Valid ∧ (0 ≤ clock.date.year ∧ clock.date.year ≤ 9999) ∧
      -1440 < offset ∧ offset < 1440 then
    return ⟨clock, offset, h⟩
  else none

def padded (width n : Nat) : List Char :=
  List.replicate (width - (Nat.toDigits 10 n).length) '0' ++ Nat.toDigits 10 n

/-- Four digits, or a sign and at least four digits outside the years that four digits name. -/
def yearText (year : Int) : List Char :=
  if year < 0 then '-' :: padded 4 year.natAbs
  else if 9999 < year then '+' :: padded 4 year.natAbs
  else padded 4 year.natAbs

def clockText (c : Clock) : List Char :=
  yearText c.date.year ++ '-' :: padded 2 c.date.month ++ '-' :: padded 2 c.date.day ++
    'T' :: padded 2 (c.minute / 60) ++ ':' :: padded 2 (c.minute % 60) ++ ':' :: padded 2 c.second

/-- The fewest of 0, 3, 6 or 9 digits that are exact. -/
def fractionText (nanosecond : Nat) : List Char :=
  if nanosecond = 0 then []
  else if nanosecond % 1000000 = 0 then '.' :: padded 3 (nanosecond / 1000000)
  else if nanosecond % 1000 = 0 then '.' :: padded 6 (nanosecond / 1000)
  else '.' :: padded 9 nanosecond

def offsetText (offset : Int) : List Char :=
  if offset = 0 then ['Z']
  else (if offset < 0 then '-' else '+') ::
    padded 2 (offset.natAbs / 60) ++ ':' :: padded 2 (offset.natAbs % 60)

def localText (t : DateTime) : String :=
  String.ofList (clockText t.clock ++ fractionText t.clock.nanosecond ++ offsetText t.offset)

/-- A date-time in UTC with everything below the millisecond dropped. -/
def utcText (t : DateTime) : String :=
  String.ofList (clockText t.utc ++ '.' :: padded 3 (t.utc.nanosecond / 1000000) ++ ['Z'])

end Scim.Timestamp
