/-
Arithmetic expressions in three layers: sums of products of factors, where a
factor may hold an expression in parentheses.

An operator and its right operand are separate fields, because compiled files
may hold one without the other; the parser always sets both or neither.
-/
import Horn.Term

namespace Horn

inductive SumOp
  | add
  | subtract
deriving Repr, DecidableEq

inductive ProductOp
  | multiply
  | divide
deriving Repr, DecidableEq

mutual

inductive Factor
  | num (value : Float)
  | var (name : Var)
  | paren (expr : Expr)

structure Product where
  left : Factor
  op : Option ProductOp
  right : Option Factor

structure Expr where
  left : Product
  op : Option SumOp
  right : Option Product

end

def SumOp.symbol : SumOp → String
  | .add => "+"
  | .subtract => "-"

def ProductOp.symbol : ProductOp → String
  | .multiply => "*"
  | .divide => "/"

/-- The word for an operator in messages. -/
def SumOp.name : SumOp → String
  | .add => "Add"
  | .subtract => "Subtract"

/-- The word for an operator in messages. -/
def ProductOp.name : ProductOp → String
  | .multiply => "Multiply"
  | .divide => "Divide"

/-- A factor on its own as a product. -/
def Product.single (factor : Factor) : Product :=
  ⟨factor, none, none⟩

/-- A product on its own as an expression. -/
def Expr.single (product : Product) : Expr :=
  ⟨product, none, none⟩

mutual

def Factor.rename (image : Var → Var) : Factor → Factor
  | .num value => .num value
  | .var name => .var (image name)
  | .paren expr => .paren (expr.rename image)

def Product.rename (image : Var → Var) : Product → Product
  | ⟨left, op, none⟩ => ⟨left.rename image, op, none⟩
  | ⟨left, op, some right⟩ => ⟨left.rename image, op, some (right.rename image)⟩

def Expr.rename (image : Var → Var) : Expr → Expr
  | ⟨left, op, none⟩ => ⟨left.rename image, op, none⟩
  | ⟨left, op, some right⟩ => ⟨left.rename image, op, some (right.rename image)⟩

end

mutual

/-- Every occurrence of a variable, from left to right; a right operand counts
whether or not there is an operator before it. -/
def Factor.occurrences : Factor → List Var
  | .num _ => []
  | .var name => [name]
  | .paren expr => expr.occurrences

def Product.occurrences : Product → List Var
  | ⟨left, _, none⟩ => left.occurrences
  | ⟨left, _, some right⟩ => left.occurrences ++ right.occurrences

def Expr.occurrences : Expr → List Var
  | ⟨left, _, none⟩ => left.occurrences
  | ⟨left, _, some right⟩ => left.occurrences ++ right.occurrences

end

def Expr.variables (expr : Expr) : List Var :=
  expr.occurrences.eraseDups

mutual

/-- Each operation stands in parentheses of its own. -/
def Factor.render : Factor → String
  | .num value => numberText value
  | .var name => name
  | .paren expr => expr.render

def Product.render : Product → String
  | ⟨left, some op, some right⟩ =>
      "(" ++ left.render ++ " " ++ op.symbol ++ " " ++ right.render ++ ")"
  | ⟨left, none, _⟩ => left.render
  | ⟨left, some _, none⟩ => left.render

def Expr.render : Expr → String
  | ⟨left, some op, some right⟩ =>
      "(" ++ left.render ++ " " ++ op.symbol ++ " " ++ right.render ++ ")"
  | ⟨left, none, _⟩ => left.render
  | ⟨left, some _, none⟩ => left.render

end

mutual

def Factor.equal : Factor → Factor → Bool
  | .num left, .num right => left == right
  | .var left, .var right => left = right
  | .paren left, .paren right => left.equal right
  | _, _ => false

def Product.equal : Product → Product → Bool
  | ⟨left, op, none⟩, ⟨left', op', none⟩ => left.equal left' && op = op'
  | ⟨left, op, some right⟩, ⟨left', op', some right'⟩ =>
      left.equal left' && op = op' && right.equal right'
  | _, _ => false

def Expr.equal : Expr → Expr → Bool
  | ⟨left, op, none⟩, ⟨left', op', none⟩ => left.equal left' && op = op'
  | ⟨left, op, some right⟩, ⟨left', op', some right'⟩ =>
      left.equal left' && op = op' && right.equal right'
  | _, _ => false

end

instance : BEq Expr := ⟨Expr.equal⟩

end Horn
