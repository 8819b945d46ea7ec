/-
From tokens to programs, queries and lines of commands, by recursive descent
with one token in view.

A fault found before its token is passed is placed at that token; one found
after passing it is placed at the token that follows.
-/
import Horn.Source.Lexer
import Horn.Statement

namespace Horn

inductive Directive
  | load (path : String)
  | set (key value : String)
  | next
  | quit
deriving Repr, DecidableEq

inductive Command
  | statement (statement : Statement)
  | directive (directive : Directive)

/-- The tokens in view and the number of placeholders met before them. -/
structure Input where
  tokens : Tokens
  placeholders : Nat

def Tokens.current : Tokens → Token
  | .next token _ _ => token
  | .done _ => .endOfText
  | .broken _ => .endOfText

def Tokens.position : Tokens → Position
  | .next _ position _ => position
  | .done position => position
  | .broken error => error.position

/-- Readers of input, which give a value and the input left. -/
abbrev Reader := StateT Input (Except ParseError)

namespace Reader

/-- The token in view. -/
def current : Reader Token := fun input => .ok (input.tokens.current, input)

/-- Fail at the token in view. -/
def fail {α : Type} (fault : Fault) : Reader α := fun input =>
  .error ⟨fault, input.tokens.position⟩

/-- Pass the token in view.  The next token comes into view, so a fault of the
text there is met now. -/
def advance : Reader Token := fun input =>
  match input.tokens with
  | .next _ _ (.broken error) => .error error
  | .next token _ rest => .ok (token, { input with tokens := rest })
  | .done _ => .ok (.endOfText, input)
  | .broken error => .error error

def sees (symbol : Symbol) : Reader Bool := do
  match ← current with
  | .symbol found => return found = symbol
  | _ => return false

def eat (symbol : Symbol) : Reader Bool := do
  if ← sees symbol then
    let _ ← advance
    return true
  else return false

def expect (symbol : Symbol) : Reader Unit := do
  if ← eat symbol then return ()
  else fail (.expectedSymbol symbol (← current))

def atEnd : Reader Bool := do
  match ← current with
  | .endOfText => return true
  | _ => return false

/-- The variable for a written name.  Each underscore on its own stands for a
variable of its own. -/
def placeholderOr (name : String) : Reader Var := fun input =>
  if name = "_" then
    .ok ("_G" ++ toString input.placeholders,
      { input with placeholders := input.placeholders + 1 })
  else .ok (name, input)

/-- The number after a minus sign that has been passed. -/
def negative : Reader Float := do
  match ← advance with
  | .number value => return -value
  | _ => fail .expectedNumber

mutual

/-- A term that can stand as an argument. -/
def arg : Nat → Reader Term
  | 0 => fail .tooDeep
  | fuel + 1 => do
      match ← advance with
      | .variable name => return .var (← placeholderOr name)
      | .number value => return .num value
      | .symbol .minus => return .num (← negative)
      | .identifier name => compound fuel name (.atom name)
      | .string text => compound fuel text (.str text)
      | .symbol .leftBracket => list fuel
      | found => fail (.expectedTerm found)

/-- A fact if arguments in parentheses follow, and `plain` otherwise. -/
def compound (fuel : Nat) (functor : String) (plain : Term) : Reader Term :=
  match fuel with
  | 0 => fail .tooDeep
  | fuel + 1 => do
      if !(← eat .leftParen) then return plain
      if ← eat .rightParen then return .fact functor []
      let args ← args fuel
      expect .rightParen
      return .fact functor args

def list : Nat → Reader Term
  | 0 => fail .tooDeep
  | fuel + 1 => do
      if ← eat .rightBracket then return .emptyList
      let items ← args fuel
      let tail ← if ← eat .bar then arg fuel else pure Term.emptyList
      expect .rightBracket
      return .list items tail

def args : Nat → Reader (List Term)
  | 0 => fail .tooDeep
  | fuel + 1 => do
      let first ← arg fuel
      if ← eat .comma then return first :: (← args fuel)
      else return [first]

end

/-- Continue an expression with an operator; what was read so far becomes its
left operand. -/
def extendSum (expr : Expr) (op : SumOp) (right : Product) : Expr :=
  match expr.right with
  | none => ⟨expr.left, some op, some right⟩
  | some _ => ⟨.single (.paren expr), some op, some right⟩

/-- Continue a product with an operator; what was read so far becomes its left
operand. -/
def extendProduct (product : Product) (op : ProductOp) (right : Factor) : Product :=
  match product.right with
  | none => ⟨product.left, some op, some right⟩
  | some _ => ⟨.paren (.single product), some op, some right⟩

def sumOp? : Token → Option SumOp
  | .symbol .plus => some .add
  | .symbol .minus => some .subtract
  | _ => none

def productOp? : Token → Option ProductOp
  | .symbol .star => some .multiply
  | .symbol .slash => some .divide
  | _ => none

mutual

/-- Products with signs between them, grouping to the left. -/
def expr : Nat → Reader Expr
  | 0 => fail .tooDeep
  | fuel + 1 => do
      let first ← product fuel
      moreSums fuel (.single first)

def moreSums (fuel : Nat) (sum : Expr) : Reader Expr :=
  match fuel with
  | 0 => fail .tooDeep
  | fuel + 1 => do
      match sumOp? (← current) with
      | none => return sum
      | some op =>
          let _ ← advance
          let right ← product fuel
          moreSums fuel (extendSum sum op right)

/-- Factors with signs between them, grouping to the left. -/
def product : Nat → Reader Product
  | 0 => fail .tooDeep
  | fuel + 1 => do
      let first ← factor fuel
      moreProducts fuel (.single first)

def moreProducts (fuel : Nat) (product : Product) : Reader Product :=
  match fuel with
  | 0 => fail .tooDeep
  | fuel + 1 => do
      match productOp? (← current) with
      | none => return product
      | some op =>
          let _ ← advance
          let right ← factor fuel
          moreProducts fuel (extendProduct product op right)

def factor : Nat → Reader Factor
  | 0 => fail .tooDeep
  | fuel + 1 => do
      match ← advance with
      | .number value => return .num value
      | .symbol .minus => return .num (← negative)
      | .variable name => return .var (← placeholderOr name)
      | .symbol .leftParen =>
          let inner ← expr fuel
          expect .rightParen
          return .paren inner
      | found => fail (.expectedOperand found)

end

/-- Facts and bare atoms can stand as goals and heads. -/
def factOfTerm? : Term → Option Fact
  | .fact functor args => some ⟨functor, args⟩
  | .atom name => some ⟨name, []⟩
  | _ => none

/-- Whether the word between a variable and an expression is in view. -/
def seesIs : Reader Bool := do
  match ← current with
  | .identifier name => return name = "is"
  | _ => return false

/-- The rest of a goal that starts with a term: an equation, or the term
itself. -/
def goalAfter (fuel : Nat) (left : Term) : Reader Goal := do
  if ← eat .equals then return .fact ⟨"=", [left, ← arg fuel]⟩
  match factOfTerm? left with
  | some fact => return .fact fact
  | none => fail .expectedGoal

def goal (fuel : Nat) : Reader Goal := do
  match ← arg fuel with
  | .var target =>
      if ← seesIs then
        let _ ← advance
        return .assign target (← expr fuel)
      else goalAfter fuel (.var target)
  | left => goalAfter fuel left

/-- One or more goals with commas between them. -/
def goals (fuel : Nat) : Nat → Reader Query
  | 0 => fail .tooDeep
  | count + 1 => do
      let first ← goal fuel
      if ← eat .comma then return first :: (← goals fuel count)
      else return [first]

def head (fuel : Nat) : Reader Fact := do
  match factOfTerm? (← arg fuel) with
  | some fact => return fact
  | none => fail .expectedFact

/-- A query, whose dot may be missing, or a clause with its dot. -/
def statement (fuel : Nat) : Reader Statement := do
  if ← eat .query then
    let goals ← goals fuel fuel
    let _ ← eat .dot
    return .query goals
  let head ← head fuel
  if ← eat .neck then
    let body ← goals fuel fuel
    expect .dot
    return .clause (.rule head body)
  expect .dot
  return .clause (.fact head)

/-- The statements up to the end of the text. -/
def statements (fuel : Nat) : Nat → Reader (List Statement)
  | 0 => fail .tooDeep
  | count + 1 => do
      if ← atEnd then return []
      if ← sees .colon then fail .directiveInProgram
      return (← statement fuel) :: (← statements fuel count)

/-- A query that may start with its sign and end with a dot, and nothing after
it. -/
def query (fuel : Nat) : Reader Query := do
  let _ ← eat .query
  let goals ← goals fuel fuel
  let _ ← eat .dot
  if ← atEnd then return goals
  else fail (.textAfterQuery (← current))

/-- The value of a setting; a number becomes its plain text. -/
def settingValue : Reader String := do
  match ← advance with
  | .identifier value => return value
  | .string value => return value
  | .number value => return Layout.plain.write value
  | _ => fail .expectedSettingValue

/-- What follows a directive's name. -/
def directiveNamed (name : String) : Reader Directive := do
  if name = "load" then
    match ← advance with
    | .string path => return .load path
    | _ => fail .expectedPath
  else if name = "set" then
    match ← advance with
    | .identifier key => return .set key (← settingValue)
    | _ => fail .expectedSetting
  else if name = "next" then return .next
  else if name = "quit" then return .quit
  else fail (.unknownDirective name)

def directive : Reader Directive := do
  expect .colon
  match ← current with
  | .identifier name =>
      let _ ← advance
      directiveNamed name
  | _ => fail .expectedDirective

/-- The statements and directives up to the end of the text. -/
def commands (fuel : Nat) : Nat → Reader (List Command)
  | 0 => fail .tooDeep
  | count + 1 => do
      if ← atEnd then return []
      let first ←
        if ← sees .colon then pure (Command.directive (← directive))
        else pure (Command.statement (← statement fuel))
      return first :: (← commands fuel count)

end Reader

/-- Read a whole text.  Between two tokens that are passed no reader calls
itself or another more than four times, so the fuel is never used up. -/
def readText {α : Type} (reader : Nat → Reader α) (text : String) : Except ParseError α :=
  match Tokens.ofString text with
  | .broken error => .error error
  | tokens => do
      let (value, _) ← reader (4 * tokens.length + 4) ⟨tokens, 0⟩
      return value

/-- The statements of a program.  Directives are rejected. -/
def parseProgram (text : String) : Except ParseError (List Statement) :=
  readText (fun fuel => Reader.statements fuel fuel) text

def parseQuery (text : String) : Except ParseError Query :=
  readText Reader.query text

/-- The statements and directives of shell input. -/
def parseCommands (text : String) : Except ParseError (List Command) :=
  readText (fun fuel => Reader.commands fuel fuel) text

example : (parseProgram "p(X, _) :- q([X|T]), Y is 1 - 2 * Z.").toOption.map
    (·.map Statement.render) =
      some ["p(X,_G0) :- q([X|T]), Y is (1.0 - (2.0 * Z))."] := by decide +kernel

example : (parseQuery "p(X) :- q").toOption.isNone := by decide +kernel

example : (match parseProgram "p(a).\nq(,)." with
    | .ok _ => ""
    | .error error => error.message) = "2:4: expected term, found Comma" := by decide +kernel

example : (match parseProgram "p(a).\nq : r." with
    | .ok _ => ""
    | .error error => error.message) = "2:3: expected Dot, found Colon" := by decide +kernel

end Horn
