import Scim.Text.Basic
import Scim.Text.Place

/-!
The tokens of a filter: brackets, quoted literals and words. A word ends at white space, a bracket
or a quote; what it means depends on where it stands.
-/
namespace Scim.Filter

inductive Lexeme where
  | openParen
  | closeParen
  | openBracket
  | closeBracket
  | word (text : String)
  | quoted (text : String)
  deriving DecidableEq, Repr

/-- A lexeme and the number of bytes in front of it. A quoted lexeme holds its unescaped text. -/
structure Token where
  lexeme : Lexeme
  position : Nat
  deriving DecidableEq, Repr

namespace Token

def bracket? : Char → Option Lexeme
  | '(' => some .openParen
  | ')' => some .closeParen
  | '[' => some .openBracket
  | ']' => some .closeBracket
  | _ => none

def isWordChar (c : Char) : Bool := !Text.isBlank c && (bracket? c).isNone && c != '"'

/-- What is being read, where it started, and its characters so far, last first. -/
inductive Mode where
  | between
  | word (start : Nat) (seen : List Char)
  | literal (start : Nat) (seen : List Char)
  | escape (start : Nat) (seen : List Char)

/-- A character that is not part of a token before it: the token that it is, and what it starts. -/
def start (position : Nat) (c : Char) : List Token × Mode :=
  if Text.isBlank c then ([], .between)
  else if c = '"' then ([], .literal position [])
  else match bracket? c with
    | some lexeme => ([⟨lexeme, position⟩], .between)
    | none => ([], .word position [c])

/-- The tokens of the characters from a position on, or the position of a quote that is never
closed. A backslash before a quote or a backslash is dropped; any other one stays. -/
def scan : Mode → Nat → List Char → Except Nat (List Token)
  | .between, _, [] => .ok []
  | .word first seen, _, [] => .ok [⟨.word (String.ofList seen.reverse), first⟩]
  | .literal first _, _, [] => .error first
  | .escape first _, _, [] => .error first
  | .between, position, c :: cs =>
    (scan (start position c).2 (position + c.utf8Size) cs).map ((start position c).1 ++ ·)
  | .word first seen, position, c :: cs =>
    if isWordChar c then scan (.word first (c :: seen)) (position + c.utf8Size) cs
    else
      (scan (start position c).2 (position + c.utf8Size) cs).map fun tokens =>
        ⟨.word (String.ofList seen.reverse), first⟩ :: ((start position c).1 ++ tokens)
  | .literal first seen, position, c :: cs =>
    if c = '"' then
      (scan .between (position + c.utf8Size) cs).map
        (⟨.quoted (String.ofList seen.reverse), first⟩ :: ·)
    else if c = '\\' then scan (.escape first seen) (position + c.utf8Size) cs
    else scan (.literal first (c :: seen)) (position + c.utf8Size) cs
  | .escape first seen, position, c :: cs =>
    if c = '"' ∨ c = '\\' then scan (.literal first (c :: seen)) (position + c.utf8Size) cs
    else scan (.literal first (c :: '\\' :: seen)) (position + c.utf8Size) cs

end Token

end Scim.Filter
