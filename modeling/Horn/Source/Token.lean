/-
Tokens of program text, and the faults that can be found in it.
-/
import Horn.Number.Layout
import Horn.Text.Quoted

namespace Horn

/-- A place in a text.  Lines and columns count from one, columns in
characters. -/
structure Position where
  line : Nat
  column : Nat
deriving Repr, DecidableEq

namespace Position

def start : Position := ⟨1, 1⟩

/-- The place after one more character. -/
def after (position : Position) (c : Char) : Position :=
  if c = '\n' then ⟨position.line + 1, 1⟩ else ⟨position.line, position.column + 1⟩

/-- The place after some more characters. -/
def afterAll (position : Position) (text : List Char) : Position :=
  text.foldl after position

@[simp] theorem afterAll_cons (position : Position) (c : Char) (text : List Char) :
    position.afterAll (c :: text) = (position.after c).afterAll text := rfl

theorem afterAll_append (position : Position) (left right : List Char) :
    position.afterAll (left ++ right) = (position.afterAll left).afterAll right := by
  simp [afterAll]

end Position

/-- Tokens with a fixed spelling. -/
inductive Symbol
  | leftParen
  | rightParen
  | leftBracket
  | rightBracket
  | comma
  | dot
  | bar
  | neck
  | query
  | colon
  | equals
  | plus
  | minus
  | star
  | slash
deriving Repr, DecidableEq

inductive Token
  | identifier (name : String)
  | variable (name : String)
  | number (value : Float)
  | string (text : String)
  | symbol (mark : Symbol)
  | endOfText

def Symbol.spelling : Symbol → String
  | .leftParen => "("
  | .rightParen => ")"
  | .leftBracket => "["
  | .rightBracket => "]"
  | .comma => ","
  | .dot => "."
  | .bar => "|"
  | .neck => ":-"
  | .query => "?-"
  | .colon => ":"
  | .equals => "="
  | .plus => "+"
  | .minus => "-"
  | .star => "*"
  | .slash => "/"

/-- The name of a symbol in messages. -/
def Symbol.describe : Symbol → String
  | .leftParen => "LParen"
  | .rightParen => "RParen"
  | .leftBracket => "LBracket"
  | .rightBracket => "RBracket"
  | .comma => "Comma"
  | .dot => "Dot"
  | .bar => "Pipe"
  | .neck => "Neck"
  | .query => "Query"
  | .colon => "Colon"
  | .equals => "Equals"
  | .plus => "Plus"
  | .minus => "Minus"
  | .star => "Star"
  | .slash => "Slash"

/-- The form of a token in messages. -/
def Token.describe : Token → String
  | .identifier name => "Identifier(" ++ quoted name ++ ")"
  | .variable name => "Variable(" ++ quoted name ++ ")"
  | .number value => "Number(" ++ numberText value ++ ")"
  | .string text => "StringLit(" ++ quoted text ++ ")"
  | .symbol mark => mark.describe
  | .endOfText => "Eof"

/-- Why a text is not a program, a query or a line of commands.  `tooDeep` is
for readers that run out of fuel, which those of a whole text never do. -/
inductive Fault
  | unexpectedCharacter (c : Char)
  | unterminatedString
  | expectedSymbol (expected : Symbol) (found : Token)
  | expectedTerm (found : Token)
  | expectedOperand (found : Token)
  | expectedNumber
  | expectedGoal
  | expectedFact
  | textAfterQuery (found : Token)
  | directiveInProgram
  | expectedDirective
  | unknownDirective (name : String)
  | expectedPath
  | expectedSetting
  | expectedSettingValue
  | tooDeep

def Fault.message : Fault → String
  | .unexpectedCharacter c => "unexpected character: '" ++ c.toString ++ "'"
  | .unterminatedString => "unterminated string literal"
  | .expectedSymbol expected found =>
      "expected " ++ expected.describe ++ ", found " ++ found.describe
  | .expectedTerm found => "expected term, found " ++ found.describe
  | .expectedOperand found =>
      "expected number, variable or '(', found " ++ found.describe
  | .expectedNumber => "expected number after '-'"
  | .expectedGoal => "expected a goal"
  | .expectedFact => "expected a fact"
  | .textAfterQuery found => "unexpected " ++ found.describe ++ " after query"
  | .directiveInProgram => "directives are only allowed in the shell"
  | .expectedDirective => "expected directive name after ':'"
  | .unknownDirective name => "unknown directive: " ++ name
  | .expectedPath => "expected string literal after :load"
  | .expectedSetting => "expected setting name after :set"
  | .expectedSettingValue => "expected setting value after setting name"
  | .tooDeep => "nested too deeply"

/-- A fault and where it was noticed. -/
structure ParseError where
  fault : Fault
  position : Position

/-- The message of an error after its line and column. -/
def ParseError.message (error : ParseError) : String :=
  toString error.position.line ++ ":" ++ toString error.position.column ++ ": " ++
    error.fault.message

end Horn
