import Scim.Filter.Combine
import Scim.Filter.Expression
import Scim.Filter.Token

/-!
Reading filters: a machine with a stack of open brackets that takes one token at a time.

    filter  =  term *( ("and" / "or") term )
    term    =  "(" filter ")"  /  "not" "(" filter ")"  /  path "[" filter "]"
            /  path "pr"  /  path operator value

A word is a path, an operator, a keyword or a value by its place in the grammar.
-/
namespace Scim.Filter

inductive Fault where
  | unterminatedLiteral
  | emptyFilter
  | termMissing
  | notAPath
  | negationWithoutGroup
  | invalidPath (fault : AttributePath.Fault)
  | operatorMissing (path : String)
  | notAnOperator (path : String)
  | unknownOperator (word : String)
  | needlessValue
  | valueMissing (op : CompareOp)
  | numberOutOfRange (word : String)
  | invalidValue (word : String)
  | unmatched (bracket : Char)
  | unknownKeyword (word : String)
  | keywordMissing
  deriving DecidableEq, Repr

def Fault.message : Fault → String
  | unterminatedLiteral => "unterminated string literal"
  | emptyFilter => "empty filter"
  | termMissing => "unexpected end of filter, expected an attribute path"
  | notAPath => "expected an attribute path"
  | negationWithoutGroup => "'not' must be followed by a parenthesized filter"
  | invalidPath fault => fault.message
  | operatorMissing path => s!"unexpected end of filter, expected an operator after '{path}'"
  | notAnOperator path => s!"expected an operator after '{path}'"
  | unknownOperator word => s!"unknown operator '{word}'"
  | needlessValue => "operator 'pr' does not take a value"
  | valueMissing op => s!"operator '{op.keyword}' requires a value"
  | numberOutOfRange word => s!"numeric literal '{word}' is out of range"
  | invalidValue word => s!"invalid comparison value '{word}'"
  | unmatched bracket => s!"unmatched '{bracket}'"
  | unknownKeyword word => s!"expected 'and' or 'or' but found '{word}'"
  | keywordMissing => "expected a logical operator after expression"

structure SyntaxError where
  fault : Fault
  place : Text.Place
  deriving DecidableEq, Repr

def locate (place : Text.Place) (reason : String) : String :=
  s!"Invalid filter at position {place.position} near '{place.fragment}': {reason}"

def SyntaxError.message (error : SyntaxError) : String := locate error.place error.fault.message

/-- What an open bracket belongs to. -/
inductive Opening where
  | group
  | negation
  | values (parent : AttributePath)
  deriving DecidableEq

def Opening.bracket : Opening → Char
  | group => '('
  | negation => '('
  | values _ => '['

def Opening.close : Opening → Expression → Expression
  | group, filter => filter
  | negation, filter => .negation filter
  | values parent, filter => .grouping parent filter

/-- The terms of a level before the next one and the keyword after each of them, last first. -/
abbrev Level := List (Expression × LogicalOp)

def Level.arrange : Level → Expression → List (LogicalOp × Expression) →
    Expression × List (LogicalOp × Expression)
  | [], first, rest => (first, rest)
  | (term, op) :: before, next, rest => Level.arrange before term ((op, next) :: rest)

def Level.finish (before : Level) (last : Expression) : Expression :=
  let (first, rest) := before.arrange last []
  combine Expression.logical first rest

/-- An open bracket, its position, and the level it interrupts. -/
structure Frame where
  opening : Opening
  position : Nat
  before : Level

/-- What surrounds the next term: the open brackets, innermost first, and its level. -/
structure Context where
  frames : List Frame
  before : Level

def Context.enter (context : Context) (opening : Opening) (position : Nat) : Context :=
  ⟨⟨opening, position, context.before⟩ :: context.frames, []⟩

/-- What may come next. -/
inductive State where
  | term (context : Context)
  | group (context : Context) (position : Nat)
  | operator (context : Context) (word : String) (path : AttributePath)
  | value (context : Context) (path : AttributePath) (op : CompareOp)
  | afterPresent (context : Context) (path : AttributePath)
  | keyword (context : Context) (term : Expression)

def bareTerm (path : AttributePath) (op : CompareOp) (word : String) : Except Fault Expression :=
  if word = "null" then .ok (.null path op)
  else if word = "true" then .ok (.comparison path op (.boolean true))
  else if word = "false" then .ok (.comparison path op (.boolean false))
  else match Numeral.read word.toList with
    | none => .error (.invalidValue word)
    | some numeral =>
      match Decimal.ofNumeral? numeral with
      | none => .error (.numberOutOfRange word)
      | some value => .ok (.comparison path op (.number value))

def afterTerm (context : Context) (term : Expression) (token : Token) :
    Except (Fault × Nat) State :=
  match token.lexeme, context.frames with
  | .word word, _ =>
    match LogicalOp.ofKeyword? word with
    | some op => .ok (.term { context with before := (term, op) :: context.before })
    | none => .error (.unknownKeyword word, token.position)
  | .closeParen, ⟨.group, _, before⟩ :: frames =>
    .ok (.keyword ⟨frames, before⟩ (Opening.group.close (context.before.finish term)))
  | .closeParen, ⟨.negation, _, before⟩ :: frames =>
    .ok (.keyword ⟨frames, before⟩ (Opening.negation.close (context.before.finish term)))
  | .closeBracket, ⟨.values parent, _, before⟩ :: frames =>
    .ok (.keyword ⟨frames, before⟩ ((Opening.values parent).close (context.before.finish term)))
  | .closeParen, _ => .error (.unmatched ')', token.position)
  | .closeBracket, _ => .error (.unmatched ']', token.position)
  | _, _ => .error (.keywordMissing, token.position)

def step (state : State) (token : Token) : Except (Fault × Nat) State :=
  match state, token.lexeme with
  | .term context, .openParen => .ok (.term (context.enter .group token.position))
  | .term context, .word word =>
    if word = "not" then .ok (.group context token.position)
    else match AttributePath.parse word with
      | .ok path => .ok (.operator context word path)
      | .error fault => .error (.invalidPath fault, token.position)
  | .term _, _ => .error (.notAPath, token.position)
  | .group context _, .openParen => .ok (.term (context.enter .negation token.position))
  | .group _ position, _ => .error (.negationWithoutGroup, position)
  | .operator context _ path, .openBracket =>
    .ok (.term (context.enter (.values path) token.position))
  | .operator context _ path, .word word =>
    match CompareOp.ofKeyword? word with
    | some .pr => .ok (.afterPresent context path)
    | some op => .ok (.value context path op)
    | none => .error (.unknownOperator word, token.position)
  | .operator _ text _, _ => .error (.notAnOperator text, token.position)
  | .value context path op, .quoted text =>
    .ok (.keyword context (.comparison path op (Operand.ofLiteral text)))
  | .value context path op, .word word =>
    match bareTerm path op word with
    | .ok term => .ok (.keyword context term)
    | .error fault => .error (fault, token.position)
  | .value _ _ op, _ => .error (.valueMissing op, token.position)
  | .afterPresent _ _, .quoted _ => .error (.needlessValue, token.position)
  | .afterPresent context path, .word word =>
    if (LogicalOp.ofKeyword? word).isNone then .error (.needlessValue, token.position)
    else afterTerm context (.present path) token
  | .afterPresent context path, _ => afterTerm context (.present path) token
  | .keyword context term, _ => afterTerm context term token

/-- The filter that ends with this term, if no bracket is open. -/
def finish (context : Context) (term : Expression) : Except (Fault × Nat) Expression :=
  match context.frames with
  | [] => .ok (context.before.finish term)
  | frame :: _ => .error (.unmatched frame.opening.bracket, frame.position)

def State.finish (stop : Nat) : State → Except (Fault × Nat) Expression
  | term _ => .error (.termMissing, stop)
  | group _ position => .error (.negationWithoutGroup, position)
  | operator _ text _ => .error (.operatorMissing text, stop)
  | value _ _ op => .error (.valueMissing op, stop)
  | afterPresent context path => Filter.finish context (.present path)
  | keyword context last => Filter.finish context last

def State.initial : State := .term ⟨[], []⟩

def parseTokens (stop : Nat) (tokens : List Token) : Except (Fault × Nat) Expression :=
  (tokens.foldlM step State.initial).bind (State.finish stop)

def SyntaxError.at (text : String) (fault : Fault) (position : Nat) : SyntaxError :=
  ⟨fault, .of text position⟩

def tokenize (text : String) : Except SyntaxError (List Token) :=
  match Token.scan .between 0 text.toList with
  | .ok tokens => .ok tokens
  | .error position => .error (.at text .unterminatedLiteral position)

def parse (text : String) : Except SyntaxError Expression :=
  match tokenize text with
  | .error error => .error error
  | .ok [] => .error (.at text .emptyFilter 0)
  | .ok tokens =>
    match parseTokens (Text.byteCount text.toList) tokens with
    | .ok expression => .ok expression
    | .error (fault, position) => .error (.at text fault position)

end Scim.Filter
