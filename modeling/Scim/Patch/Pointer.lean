import Scim.Json.Basic

/-!
JSON Pointers: lists of reference tokens, each the name of a member or the index of an element. In a
pointer's text a slash precedes every token, and slashes and tildes inside tokens are escaped.
Unescaping undoes escaping for every token.
-/
namespace Scim.Pointer

def escapedChar (c : Char) : List Char :=
  if c = '~' then ['~', '0'] else if c = '/' then ['~', '1'] else [c]

def escapedChars (token : List Char) : List Char := token.flatMap escapedChar

def escaped (token : String) : String := String.ofList (escapedChars token.toList)

def unescapedChars : List Char → List Char
  | '~' :: '0' :: cs => '~' :: unescapedChars cs
  | '~' :: '1' :: cs => '/' :: unescapedChars cs
  | c :: cs => c :: unescapedChars cs
  | [] => []

/-- The token that a text stands for; a tilde that escapes nothing stands for itself. -/
def unescaped (text : String) : String := String.ofList (unescapedChars text.toList)

theorem unescapedChars_escapedChars (token : List Char) :
    unescapedChars (escapedChars token) = token := by
  induction token with
  | nil => rfl
  | cons c cs ih =>
    have hcons : escapedChars (c :: cs) = escapedChar c ++ escapedChars cs := rfl
    rw [hcons, escapedChar]
    split
    · rename_i h
      simp only [h, List.cons_append, List.nil_append, unescapedChars, ih]
    · split
      · rename_i h
        simp only [h, List.cons_append, List.nil_append, unescapedChars, ih]
      · rename_i htilde _
        rw [List.singleton_append, unescapedChars, ih]
        · exact fun _ hc => absurd hc htilde
        · exact fun _ hc => absurd hc htilde

/-- A token is read back from its escaped text. -/
theorem unescaped_escaped (token : String) : unescaped (escaped token) = token := by
  simp only [unescaped, escaped, String.toList_ofList, unescapedChars_escapedChars,
    String.ofList_toList]

def join (base token : String) : String := base ++ "/" ++ escaped token

def text (tokens : List String) : String := tokens.foldl join ""

/-- The tokens of a pointer's text. Both the empty text and a lone slash stand for the root, and any
other text must start with a slash. -/
def parse (text : String) : Option (List String) :=
  match text.toList with
  | [] => some []
  | ['/'] => some []
  | '/' :: cs =>
    some ((cs.splitOn '/').map fun token => String.ofList (unescapedChars token))
  | _ => none

/-- An index without a sign and without needless zeros. -/
def index? (token : String) : Option Nat :=
  let cs := token.toList
  if cs = ['0'] ∨ (cs ≠ [] ∧ cs.head? ≠ some '0') then
    if cs.all Char.isDigit then some (Nat.ofDigitChars 10 cs 0) else none
  else none

def lookup : List String → Json → Option Json
  | [], value => some value
  | token :: tokens, .obj members =>
    (Members.find? token members).bind fun child => lookup tokens child
  | token :: tokens, .arr items =>
    ((index? token).bind fun index => items[index]?).bind fun child => lookup tokens child
  | _ :: _, _ => none

end Scim.Pointer
