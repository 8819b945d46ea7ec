/-
The value of an expression under a substitution.  Operands are evaluated from
left to right, and the first that has no value gives the error.
-/
import Horn.Expr
import Horn.Bindings

namespace Horn

inductive ArithmeticError
  | unbound (name : Var)
  | notNumeric (name : Var) (value : Term)
  | noSumOperand (op : SumOp)
  | noProductOperand (op : ProductOp)

def ArithmeticError.message : ArithmeticError → String
  | .unbound name => "variable " ++ name ++ " is unbound"
  | .notNumeric name value =>
      "variable " ++ name ++ " is bound to non-numeric value " ++ value.render
  | .noSumOperand op => "operator " ++ op.name ++ " has no right operand"
  | .noProductOperand op => "operator " ++ op.name ++ " has no right operand"

def SumOp.apply : SumOp → Float → Float → Float
  | .add, left, right => left + right
  | .subtract, left, right => left - right

/-- Division by zero gives an infinity, or a float that is no number. -/
def ProductOp.apply : ProductOp → Float → Float → Float
  | .multiply, left, right => left * right
  | .divide, left, right => left / right

/-- The number at the end of a variable's chain. -/
def Bindings.number (bindings : Bindings) (name : Var) : Except ArithmeticError Float :=
  match bindings.dereference (.var name) with
  | .num value => .ok value
  | .var _ => .error (.unbound name)
  | term => .error (.notNumeric name term)

mutual

def Factor.evaluate (bindings : Bindings) : Factor → Except ArithmeticError Float
  | .num value => .ok value
  | .var name => bindings.number name
  | .paren expr => expr.evaluate bindings

/-- Without an operator a right operand is not looked at. -/
def Product.evaluate (bindings : Bindings) : Product → Except ArithmeticError Float
  | ⟨left, none, _⟩ => left.evaluate bindings
  | ⟨left, some op, none⟩ => do
      let _ ← left.evaluate bindings
      .error (.noProductOperand op)
  | ⟨left, some op, some right⟩ => do
      let first ← left.evaluate bindings
      let second ← right.evaluate bindings
      .ok (op.apply first second)

def Expr.evaluate (bindings : Bindings) : Expr → Except ArithmeticError Float
  | ⟨left, none, _⟩ => left.evaluate bindings
  | ⟨left, some op, none⟩ => do
      let _ ← left.evaluate bindings
      .error (.noSumOperand op)
  | ⟨left, some op, some right⟩ => do
      let first ← left.evaluate bindings
      let second ← right.evaluate bindings
      .ok (op.apply first second)

end

end Horn
