import Scim.Json.Basic
import Scim.Json.Spelling

/-!
JSON text read as far as it is JSON. A text that stops being JSON still has a tree: what was read
before the fault, with `broken` where the fault is. A reader of some part of the text thus finds its
own faults and the text's faults in the order in which they stand there. An object whose first
member has a reserved name is no object but stands for a number.
-/
namespace Scim.Json

/-- A tree of JSON text. A string or name without a text has an escape that names no character.
Members are listed as they are written, repetitions included. -/
inductive Source where
  | null
  | bool (value : Bool)
  | num (spelling : String)
  | str (text : Option String)
  | arr (items : List Source)
  | obj (members : List (Option String × Source))
  | broken
  deriving Inhabited, Repr

inductive Token where
  | openBrace
  | closeBrace
  | openBracket
  | closeBracket
  | comma
  | colon
  | null
  | bool (value : Bool)
  | num (spelling : String)
  | str (text : Option String)
  | broken
  deriving Repr

namespace Token

def isSpace (c : Char) : Bool := c == ' ' || c == '\t' || c == '\n' || c == '\r'

def digits (cs : List Char) : Option (List Char × List Char) :=
  match cs.takeWhile Char.isDigit with
  | [] => none
  | ds => some (ds, cs.dropWhile Char.isDigit)

/-- The digits before the point. A zero in front stands alone. -/
def wholeDigits (cs : List Char) : Option (List Char × List Char) :=
  match cs with
  | '0' :: rest => some (['0'], rest)
  | _ => digits cs

def fractionDigits : List Char → Option (List Char × List Char)
  | '.' :: cs => (digits cs).map fun (ds, rest) => ('.' :: ds, rest)
  | cs => some ([], cs)

def exponentDigits : List Char → Option (List Char)
  | [] => some []
  | c :: cs =>
    if c = 'e' ∨ c = 'E' then
      let (sign, cs) := match cs with
        | '-' :: cs => ('-', cs)
        | '+' :: cs => ('+', cs)
        | cs => ('+', cs)
      match digits cs with
      | some (ds, []) => some ('e' :: sign :: ds)
      | _ => none
    else none

def unsignedNumber (cs : List Char) : Option (List Char) := do
  let (whole, cs) ← wholeDigits cs
  let (fraction, cs) ← fractionDigits cs
  let exponent ← exponentDigits cs
  return whole ++ fraction ++ exponent

def number? : List Char → Option (List Char)
  | '-' :: cs => (unsignedNumber cs).map ('-' :: ·)
  | cs => unsignedNumber cs

/-- A run of letters, digits, signs and points: a number or one of the three names. -/
def ofBare (cs : List Char) : Token :=
  if cs = ['n', 'u', 'l', 'l'] then null
  else if cs = ['t', 'r', 'u', 'e'] then bool true
  else if cs = ['f', 'a', 'l', 's', 'e'] then bool false
  else match number? cs with
    | some spelling => num (String.ofList spelling)
    | none => broken

def isBare (c : Char) : Bool := c.isAlphanum || c == '-' || c == '+' || c == '.'

def isHighSurrogate (unit : Nat) : Bool := 0xD800 ≤ unit && unit < 0xDC00

def isLowSurrogate (unit : Nat) : Bool := 0xDC00 ≤ unit && unit < 0xE000

/-- Adds a code unit behind those read so far, last first. A low surrogate joins the high one before
it. -/
def addUnit (unit : Nat) : List Nat → List Nat
  | last :: seen =>
    if isLowSurrogate unit && isHighSurrogate last then
      (0x10000 + (last - 0xD800) * 0x400 + (unit - 0xDC00)) :: seen
    else unit :: last :: seen
  | [] => [unit]

/-- The string of the code points read, last first, unless a surrogate is left alone. -/
def ofUnits (seen : List Nat) : Token :=
  if seen.any fun unit => isHighSurrogate unit || isLowSurrogate unit then str none
  else str (some (String.ofList (seen.reverse.map Char.ofNat)))

def hexValue (c : Char) : Option Nat :=
  if c.isDigit then some (c.toNat - '0'.toNat)
  else if 'a' ≤ c ∧ c ≤ 'f' then some (c.toNat - 'a'.toNat + 10)
  else if 'A' ≤ c ∧ c ≤ 'F' then some (c.toNat - 'A'.toNat + 10)
  else none

def escapedUnit : Char → Option Nat
  | '"' => some '"'.toNat
  | '\\' => some '\\'.toNat
  | '/' => some '/'.toNat
  | 'b' => some 0x08
  | 'f' => some 0x0C
  | 'n' => some 0x0A
  | 'r' => some 0x0D
  | 't' => some 0x09
  | _ => none

/-- What is being read: nothing, a bare run, a string, an escape in it, or the digits of a code unit
with the number of digits to come. -/
inductive Mode where
  | between
  | bare (seen : List Char)
  | inside (seen : List Nat)
  | escape (seen : List Nat)
  | hex (seen : List Nat) (value digitsLeft : Nat)

def start (c : Char) : List Token × Mode :=
  if isSpace c then ([], .between)
  else if c = '"' then ([], .inside [])
  else if isBare c then ([], .bare [c])
  else if c = '\x7b' then ([openBrace], .between)
  else if c = '\x7d' then ([closeBrace], .between)
  else if c = '[' then ([openBracket], .between)
  else if c = ']' then ([closeBracket], .between)
  else if c = ',' then ([comma], .between)
  else if c = ':' then ([colon], .between)
  else ([broken], .between)

def scan : Mode → List Token → List Char → List Token
  | .between, found, [] => found.reverse
  | .bare seen, found, [] => (ofBare seen.reverse :: found).reverse
  | .inside _, found, [] => (broken :: found).reverse
  | .escape _, found, [] => (broken :: found).reverse
  | .hex _ _ _, found, [] => (broken :: found).reverse
  | .between, found, c :: cs => scan (start c).2 ((start c).1 ++ found) cs
  | .bare seen, found, c :: cs =>
    if isBare c then scan (.bare (c :: seen)) found cs
    else scan (start c).2 ((start c).1 ++ ofBare seen.reverse :: found) cs
  | .inside seen, found, c :: cs =>
    if c = '"' then scan .between (ofUnits seen :: found) cs
    else if c = '\\' then scan (.escape seen) found cs
    else if c.toNat < 0x20 then (broken :: found).reverse
    else scan (.inside (addUnit c.toNat seen)) found cs
  | .escape seen, found, c :: cs =>
    if c = 'u' then scan (.hex seen 0 4) found cs
    else match escapedUnit c with
      | some unit => scan (.inside (addUnit unit seen)) found cs
      | none => (broken :: found).reverse
  | .hex seen value digitsLeft, found, c :: cs =>
    match hexValue c with
    | some digit =>
      if digitsLeft ≤ 1 then scan (.inside (addUnit (value * 16 + digit) seen)) found cs
      else scan (.hex seen (value * 16 + digit) (digitsLeft - 1)) found cs
    | none => (broken :: found).reverse

end Token

namespace Source

/-- A container being read: what it holds so far, last first. -/
inductive Frame where
  | arr (items : List Source)
  | obj (members : List (Option String × Source)) (key : Option String)

inductive Expect where
  | value
  | firstItem
  | key (members : List (Option String × Source)) (first : Bool)
  | colon (members : List (Option String × Source)) (key : Option String)
  | more (value : Source)

/-- Puts a value into the container being read and closes all containers there. -/
def closeAll : List Frame → Source → Source
  | [], value => value
  | .arr items :: frames, value => closeAll frames (arr (value :: items).reverse)
  | .obj members key :: frames, value => closeAll frames (obj ((key, value) :: members).reverse)

def Expect.ofToken? : Token → Option Expect
  | .null => some (.more null)
  | .bool b => some (.more (bool b))
  | .num spelling => some (.more (num spelling))
  | .str text => some (.more (str text))
  | .openBracket => some .firstItem
  | .openBrace => some (.key [] true)
  | _ => none

/-- The tree of a token list, and whether the tokens end where the tree does. -/
def build : Expect → List Frame → List Token → Source × Bool
  | .more value, [], tokens => (value, tokens.isEmpty)
  | .more value, .arr items :: frames, [] =>
    (closeAll (.arr (value :: items) :: frames) broken, false)
  | .more value, .arr items :: frames, token :: tokens =>
    match token with
    | .comma => build .value (.arr (value :: items) :: frames) tokens
    | .closeBracket => build (.more (arr (value :: items).reverse)) frames tokens
    | _ => (closeAll (.arr (value :: items) :: frames) broken, false)
  | .more value, .obj members key :: frames, [] =>
    (closeAll (.obj ((key, value) :: members) none :: frames) broken, false)
  | .more value, .obj members key :: frames, token :: tokens =>
    match token with
    | .comma => build (.key ((key, value) :: members) false) frames tokens
    | .closeBrace => build (.more (obj ((key, value) :: members).reverse)) frames tokens
    | _ => (closeAll (.obj ((key, value) :: members) none :: frames) broken, false)
  | .key members _, frames, [] => (closeAll (.obj members none :: frames) broken, false)
  | .key members first, frames, token :: tokens =>
    match token, first with
    | .str text, _ => build (.colon members text) frames tokens
    | .closeBrace, true => build (.more (obj [])) frames tokens
    | _, _ => (closeAll (.obj members none :: frames) broken, false)
  | .colon members key, frames, [] => (closeAll (.obj members key :: frames) broken, false)
  | .colon members key, frames, token :: tokens =>
    match token with
    | .colon => build .value (.obj members key :: frames) tokens
    | _ => (closeAll (.obj members key :: frames) broken, false)
  | .firstItem, frames, [] => (closeAll (.arr [] :: frames) broken, false)
  | .firstItem, frames, token :: tokens =>
    match token, Expect.ofToken? token with
    | .closeBracket, _ => build (.more (arr [])) frames tokens
    | _, some expect => build expect (.arr [] :: frames) tokens
    | _, none => (closeAll (.arr [] :: frames) broken, false)
  | .value, frames, [] => (closeAll frames broken, false)
  | .value, frames, token :: tokens =>
    match Expect.ofToken? token with
    | some expect => build expect frames tokens
    | none => (closeAll frames broken, false)

def read (text : String) : Source × Bool :=
  build .value [] (Token.scan .between [] text.toList)

/-- The member name that turns an object into a number. -/
def numberMark : String := "$serde_json::private::Number"

/-- The number that the members of an object stand for, if the first one has the reserved name. It
must be the only one and hold the text of a number. -/
def markedNumber? : List (Option String × Source) → Option (Option Json)
  | (some name, member) :: rest =>
    if name = numberMark then
      match member, rest with
      | str (some text), [] =>
        some ((Token.number? text.toList).map fun spelling => .num (String.ofList spelling))
      | _, _ => some none
    else none
  | _ => none

mutual

/-- The value of a tree without faults whose containers are nested at most `limit` deep, or to any
depth if there is no limit. A repeated name keeps its first position and its last value. -/
def value? : Option Nat → Source → Option Json
  | _, null => some .null
  | _, bool b => some (.bool b)
  | _, num spelling => some (.num spelling)
  | _, str text => text.map .str
  | some 0, arr _ => none
  | some (limit + 1), arr items => (values? (some limit) items).map .arr
  | none, arr items => (values? none items).map .arr
  | some 0, obj _ => none
  | some (limit + 1), obj members =>
    match markedNumber? members with
    | some number => number
    | none => (memberValues? (some limit) [] members).map .obj
  | none, obj members =>
    match markedNumber? members with
    | some number => number
    | none => (memberValues? none [] members).map .obj
  | _, broken => none

def values? : Option Nat → List Source → Option (List Json)
  | _, [] => some []
  | limit, item :: rest => do
    let value ← value? limit item
    let values ← values? limit rest
    return value :: values

def memberValues? : Option Nat → List (String × Json) → List (Option String × Source) →
    Option (List (String × Json))
  | _, found, [] => some found
  | limit, found, (key, member) :: rest => do
    let key ← key
    let value ← value? limit member
    memberValues? limit (Members.set key value found) rest

end

mutual

/-- A value as the tree of the text under which a request stores it. -/
def ofJson : Json → Source
  | .null => null
  | .bool b => bool b
  | .num spelling => num (respelled spelling)
  | .str text => str (some text)
  | .arr items => arr (ofItems items)
  | .obj members => obj (ofMembers members)

def ofItems : List Json → List Source
  | [] => []
  | item :: rest => ofJson item :: ofItems rest

def ofMembers : List (String × Json) → List (Option String × Source)
  | [] => []
  | (key, value) :: rest => (some key, ofJson value) :: ofMembers rest

end

end Source

def read (limit : Option Nat) (text : String) : Option Json :=
  match Source.read text with
  | (source, true) => source.value? limit
  | (_, false) => none

end Scim.Json
