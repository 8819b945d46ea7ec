/-
Nodes of compiled programs, and statements as nodes.  One type of node stands
for all parts of a statement, so not every tree is a statement; `toStatement`
says at the first wrong place what was expected there.
-/
import Horn.Statement

namespace Horn

inductive Node
  | fact (functor : String) (args : List Node)
  | rule (head body : Node)
  | query (goals : List Node)
  | var (name : Var)
  | atom (text : String)
  | str (text : String)
  | num (value : Float)
  | assign (target value : Node)
  | sum (left : Node) (op : UInt8) (right : Option Node)
  | product (left : Node) (op : UInt8) (right : Option Node)
  | factor (var num expr : Option Node)

/-- The names of nodes in compiled files. -/
inductive Tag
  | fact
  | rule
  | query
  | var
  | atom
  | str
  | num
  | assign
  | sum
  | product
  | factor
deriving Repr, DecidableEq

def Tag.name : Tag → String
  | .fact => "fact"
  | .rule => "rule"
  | .query => "query"
  | .var => "var"
  | .atom => "atom"
  | .str => "str"
  | .num => "num"
  | .assign => "ma"
  | .sum => "me"
  | .product => "mu"
  | .factor => "mf"

/-- The tags in the order of their numbers. -/
def Tag.all : List Tag :=
  [.fact, .rule, .query, .var, .atom, .str, .num, .assign, .sum, .product, .factor]

def Tag.ofName? (name : String) : Option Tag :=
  Tag.all.find? fun tag => tag.name = name

def Node.tag : Node → Tag
  | .fact _ _ => .fact
  | .rule _ _ => .rule
  | .query _ => .query
  | .var _ => .var
  | .atom _ => .atom
  | .str _ => .str
  | .num _ => .num
  | .assign _ _ => .assign
  | .sum _ _ _ => .sum
  | .product _ _ _ => .product
  | .factor _ _ _ => .factor

/-- Why a tree of nodes is no statement. -/
inductive NodeError
  | unexpected (expected : String) (found : Tag)
  | unknownSumOp (code : UInt8)
  | unknownProductOp (code : UInt8)
  | emptyFactor
deriving Repr, DecidableEq

def NodeError.message : NodeError → String
  | .unexpected expected found =>
      "expected " ++ expected ++ " node, found " ++ found.name
  | .unknownSumOp code => "unknown expression operator code " ++ toString code.toNat
  | .unknownProductOp code => "unknown multiplication operator code " ++ toString code.toNat
  | .emptyFactor => "factor has no variable, number or expression"

/-- The code of an operator, or of there being none. -/
def SumOp.code : Option SumOp → UInt8
  | some .add => 0
  | some .subtract => 1
  | none => 2

/-- The code of an operator, or of there being none. -/
def ProductOp.code : Option ProductOp → UInt8
  | some .multiply => 0
  | some .divide => 1
  | none => 2

def SumOp.ofCode (code : UInt8) : Except NodeError (Option SumOp) :=
  if code = 0 then .ok (some .add)
  else if code = 1 then .ok (some .subtract)
  else if code = 2 then .ok none
  else .error (.unknownSumOp code)

def ProductOp.ofCode (code : UInt8) : Except NodeError (Option ProductOp) :=
  if code = 0 then .ok (some .multiply)
  else if code = 1 then .ok (some .divide)
  else if code = 2 then .ok none
  else .error (.unknownProductOp code)

theorem SumOp.ofCode_code (op : Option SumOp) : SumOp.ofCode (SumOp.code op) = .ok op := by
  rcases op with _ | _ | _ <;> rfl

theorem ProductOp.ofCode_code (op : Option ProductOp) :
    ProductOp.ofCode (ProductOp.code op) = .ok op := by
  rcases op with _ | _ | _ <;> rfl

mutual

def Term.toNode : Term → Node
  | .var name => .var name
  | .atom text => .atom text
  | .str text => .str text
  | .num value => .num value
  | .fact functor args => .fact functor (Term.toNodes args)

def Term.toNodes : List Term → List Node
  | [] => []
  | term :: rest => term.toNode :: Term.toNodes rest

end

def Fact.toNode (fact : Fact) : Node :=
  .fact fact.functor (Term.toNodes fact.args)

mutual

def Factor.toNode : Factor → Node
  | .num value => .factor none (some (.num value)) none
  | .var name => .factor (some (.var name)) none none
  | .paren expr => .factor none none (some expr.toNode)

def Product.toNode : Product → Node
  | ⟨left, op, none⟩ => .product left.toNode (ProductOp.code op) none
  | ⟨left, op, some right⟩ => .product left.toNode (ProductOp.code op) (some right.toNode)

def Expr.toNode : Expr → Node
  | ⟨left, op, none⟩ => .sum left.toNode (SumOp.code op) none
  | ⟨left, op, some right⟩ => .sum left.toNode (SumOp.code op) (some right.toNode)

end

def Goal.toNode : Goal → Node
  | .fact goal => goal.toNode
  | .assign target value => .assign (.var target) value.toNode

def Query.toNode (goals : Query) : Node :=
  .query (goals.map Goal.toNode)

def Clause.toNode : Clause → Node
  | .fact head => head.toNode
  | .rule head body => .rule head.toNode (Query.toNode body)

def Statement.toNode : Statement → Node
  | .clause entry => entry.toNode
  | .query goals => Query.toNode goals

/-- Apply a step to each member in turn, up to its first error. -/
def convertAll {α β ε : Type} (convert : α → Except ε β) : List α → Except ε (List β)
  | [] => .ok []
  | first :: rest => do
      let converted ← convert first
      return converted :: (← convertAll convert rest)

namespace Node

mutual

def toTerm : Node → Except NodeError Term
  | .var name => .ok (.var name)
  | .atom text => .ok (.atom text)
  | .str text => .ok (.str text)
  | .num value => .ok (.num value)
  | .fact functor args => do return .fact functor (← toTerms args)
  | node => .error (.unexpected "term" node.tag)

def toTerms : List Node → Except NodeError (List Term)
  | [] => .ok []
  | node :: rest => do
      let term ← toTerm node
      return term :: (← toTerms rest)

end

def toFact : Node → Except NodeError Fact
  | .fact functor args => do return ⟨functor, ← toTerms args⟩
  | node => .error (.unexpected "fact" node.tag)

def toVar : Node → Except NodeError Var
  | .var name => .ok name
  | node => .error (.unexpected "var" node.tag)

def toNumber : Node → Except NodeError Float
  | .num value => .ok value
  | node => .error (.unexpected "num" node.tag)

mutual

/-- Of the three payloads a variable counts before a number, and a number
before an expression; the others are not looked at. -/
def toFactor : Node → Except NodeError Factor
  | .factor (some name) _ _ => do return .var (← toVar name)
  | .factor none (some value) _ => do return .num (← toNumber value)
  | .factor none none (some expr) => do return .paren (← toExpr expr)
  | .factor none none none => .error .emptyFactor
  | node => .error (.unexpected "mf" node.tag)

def toProduct : Node → Except NodeError Product
  | .product left code none => do
      let left ← toFactor left
      let op ← ProductOp.ofCode code
      return ⟨left, op, none⟩
  | .product left code (some right) => do
      let left ← toFactor left
      let op ← ProductOp.ofCode code
      let right ← toFactor right
      return ⟨left, op, some right⟩
  | node => .error (.unexpected "mu" node.tag)

def toExpr : Node → Except NodeError Expr
  | .sum left code none => do
      let left ← toProduct left
      let op ← SumOp.ofCode code
      return ⟨left, op, none⟩
  | .sum left code (some right) => do
      let left ← toProduct left
      let op ← SumOp.ofCode code
      let right ← toProduct right
      return ⟨left, op, some right⟩
  | node => .error (.unexpected "me" node.tag)

end

def toGoal : Node → Except NodeError Goal
  | .fact functor args => do return .fact ⟨functor, ← toTerms args⟩
  | .assign target value => do
      let name ← toVar target
      return .assign name (← toExpr value)
  | node => .error (.unexpected "goal" node.tag)

def toQuery : Node → Except NodeError Query
  | .query goals => convertAll toGoal goals
  | node => .error (.unexpected "query" node.tag)

def toStatement : Node → Except NodeError Statement
  | .fact functor args => do return .clause (.fact ⟨functor, ← toTerms args⟩)
  | .rule head body => do
      let head ← toFact head
      return .clause (.rule head (← toQuery body))
  | .query goals => do return .query (← toQuery (.query goals))
  | node => .error (.unexpected "statement" node.tag)

end Node

end Horn
