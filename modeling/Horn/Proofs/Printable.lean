/-
Statements that are written in the syntax of programs, and what becomes of them
when they are read.  Terms come back as they are; an expression comes back with
each operation in parentheses of its own, which it means anyway.
-/
import Horn.Arithmetic
import Horn.Proofs.Legible
import Horn.Proofs.PlainNotation

namespace Horn

/-- A variable that is scanned as it is written, and not numbered as an underscore
on its own. -/
def IsWritten (name : Var) : Prop :=
  isVariableName name = true ∧ name ≠ "_"

/-- Facts among the arguments have arguments themselves, or are lists. -/
inductive Term.Printable : Term → Prop
  | var {name : Var} (hname : IsWritten name) : Printable (.var name)
  | atom {text : String} (htext : isIdentifier text = true) : Printable (.atom text)
  | str {text : String} (htext : ∀ c ∈ text.toList, c ≠ '"' ∧ c ≠ '\n') : Printable (.str text)
  | num {value : Float} (hvalue : IsPlain value) : Printable (.num value)
  | fact {functor : String} {args : List Term}
      (hkind : isIdentifier functor = true ∧ args ≠ [] ∨ (Fact.mk functor args).isList = true)
      (hargs : ∀ arg ∈ args, Printable arg) : Printable (.fact functor args)

/-- A fact as a goal or a head may have no arguments. -/
structure Fact.Printable (fact : Fact) : Prop where
  kind : isIdentifier fact.functor = true ∨ fact.isList = true
  args : ∀ arg ∈ fact.args, arg.Printable

mutual

/-- There is an operator exactly where there is a right operand. -/
def Factor.Printable : Factor → Prop
  | .num value => IsPlain value
  | .var name => IsWritten name
  | .paren expr => expr.Printable

def Product.Printable : Product → Prop
  | ⟨left, none, none⟩ => left.Printable
  | ⟨left, some _, some right⟩ => left.Printable ∧ right.Printable
  | ⟨_, none, some _⟩ => False
  | ⟨_, some _, none⟩ => False

def Expr.Printable : Expr → Prop
  | ⟨left, none, none⟩ => left.Printable
  | ⟨left, some _, some right⟩ => left.Printable ∧ right.Printable
  | ⟨_, none, some _⟩ => False
  | ⟨_, some _, none⟩ => False

end

def Goal.Printable : Goal → Prop
  | .fact goal => goal.Printable
  | .assign target value => IsWritten target ∧ value.Printable

/-- There is at least one goal. -/
def Query.Printable (goals : Query) : Prop :=
  goals ≠ [] ∧ ∀ goal ∈ goals, goal.Printable

def Clause.Printable : Clause → Prop
  | .fact head => head.Printable
  | .rule head body => head.Printable ∧ Query.Printable body

def Statement.Printable : Statement → Prop
  | .clause entry => entry.Printable
  | .query goals => Query.Printable goals

/-- The digits that are printed for a number are read as that number. -/
def PrintsExactly (value : Float) : Prop :=
  ∀ whole places, (numberText value).toList = signText value ++ (whole ++ '.' :: places) →
    (if isNegative value then -readNumber whole places else readNumber whole places) = value

mutual

/-- A factor as it is read from its text. -/
def Factor.reread : Factor → Factor
  | .num value => .num value
  | .var name => .var name
  | .paren expr => expr.asFactor

/-- The text of an operation starts with a parenthesis and is read as a factor. -/
def Product.asFactor : Product → Factor
  | ⟨left, some op, some right⟩ => .paren (.single ⟨left.reread, some op, some right.reread⟩)
  | ⟨left, none, _⟩ => left.reread
  | ⟨left, some _, none⟩ => left.reread

/-- The text of an operation starts with a parenthesis and is read as a factor. -/
def Expr.asFactor : Expr → Factor
  | ⟨left, some op, some right⟩ =>
      .paren ⟨.single left.asFactor, some op, some (.single right.asFactor)⟩
  | ⟨left, none, _⟩ => left.asFactor
  | ⟨left, some _, none⟩ => left.asFactor

end

def Expr.reread (expr : Expr) : Expr :=
  .single (.single expr.asFactor)

/-- A goal as it is read from its text. -/
def Goal.reread : Goal → Goal
  | .fact goal => .fact goal
  | .assign target value => .assign target value.reread

def Query.reread (goals : Query) : Query :=
  goals.map Goal.reread

def Clause.reread : Clause → Clause
  | .fact head => .fact head
  | .rule head body => .rule head (Query.reread body)

def Statement.reread : Statement → Statement
  | .clause entry => .clause entry.reread
  | .query goals => .query (Query.reread goals)

mutual

theorem Factor.render_reread (factor : Factor) : factor.reread.render = factor.render := by
  cases factor with
  | paren expr =>
      rw [Factor.reread, Factor.render]
      exact Expr.render_asFactor expr
  | _ => rfl

theorem Product.render_asFactor (product : Product) :
    product.asFactor.render = product.render := by
  obtain ⟨left, _ | op, _ | right⟩ := product
  · exact Factor.render_reread left
  · exact Factor.render_reread left
  · exact Factor.render_reread left
  · rw [Product.asFactor, Factor.render, Expr.single, Expr.render, Product.render, Product.render,
      Factor.render_reread left, Factor.render_reread right]

theorem Expr.render_asFactor (expr : Expr) : expr.asFactor.render = expr.render := by
  obtain ⟨left, _ | op, _ | right⟩ := expr
  · exact Product.render_asFactor left
  · exact Product.render_asFactor left
  · exact Product.render_asFactor left
  · rw [Expr.asFactor, Factor.render, Expr.render, Expr.render, Product.single, Product.single,
      Product.render, Product.render, Product.render_asFactor left, Product.render_asFactor right]

end

theorem Expr.render_reread (expr : Expr) : expr.reread.render = expr.render :=
  expr.render_asFactor

theorem Goal.render_reread (goal : Goal) : goal.reread.render = goal.render := by
  cases goal with
  | fact goal => rfl
  | assign target value => rw [Goal.reread, Goal.render, Goal.render, value.render_reread]

theorem Query.render_reread (goals : Query) :
    Query.render (Query.reread goals) = Query.render goals := by
  rw [Query.render, Query.reread, List.map_map]
  congr 1
  exact List.map_congr_left fun goal _ => goal.render_reread

theorem Statement.render_reread (statement : Statement) :
    statement.reread.render = statement.render := by
  match statement with
  | .clause (.fact head) => rfl
  | .clause (.rule head body) =>
      rw [Statement.reread, Clause.reread, Statement.render, Statement.render, Clause.render,
        Clause.render, Query.render_reread]
  | .query goals =>
      rw [Statement.reread, Statement.render, Statement.render, Query.render_reread]

section Evaluation

variable (bindings : Bindings)

mutual

theorem Factor.evaluate_reread {factor : Factor} (hfactor : factor.Printable) :
    factor.reread.evaluate bindings = factor.evaluate bindings := by
  cases factor with
  | paren expr =>
      rw [Factor.reread, Factor.evaluate]
      exact Expr.evaluate_asFactor hfactor
  | _ => rfl

theorem Product.evaluate_asFactor {product : Product} (hproduct : product.Printable) :
    product.asFactor.evaluate bindings = product.evaluate bindings := by
  obtain ⟨left, _ | op, _ | right⟩ := product
  · exact Factor.evaluate_reread hproduct
  · exact hproduct.elim
  · exact hproduct.elim
  · rw [Product.asFactor, Factor.evaluate, Expr.single, Expr.evaluate, Product.evaluate,
      Product.evaluate, Factor.evaluate_reread hproduct.1, Factor.evaluate_reread hproduct.2]

theorem Expr.evaluate_asFactor {expr : Expr} (hexpr : expr.Printable) :
    expr.asFactor.evaluate bindings = expr.evaluate bindings := by
  obtain ⟨left, _ | op, _ | right⟩ := expr
  · exact Product.evaluate_asFactor hexpr
  · exact hexpr.elim
  · exact hexpr.elim
  · rw [Expr.asFactor, Factor.evaluate, Expr.evaluate, Expr.evaluate, Product.single,
      Product.single, Product.evaluate, Product.evaluate, Product.evaluate_asFactor hexpr.1,
      Product.evaluate_asFactor hexpr.2]

end

/-- Parentheses around an operation do not change its value or its error. -/
theorem Expr.evaluate_reread {expr : Expr} (hexpr : expr.Printable) :
    expr.reread.evaluate bindings = expr.evaluate bindings := by
  rw [Expr.reread, Expr.single, Expr.evaluate, Product.single, Product.evaluate]
  exact Expr.evaluate_asFactor bindings hexpr

end Evaluation

/-- The body of a rule or the goals of a query. -/
def Statement.goals : Statement → Query
  | .clause (.fact _) => []
  | .clause (.rule _ body) => body
  | .query goals => goals

def Goal.IsAssignment : Goal → Prop
  | .fact _ => False
  | .assign _ _ => True

/-- The same fact, or the same variable for expressions with the same value or
the same error under all bindings. -/
def Goal.SameValue : Goal → Goal → Prop
  | .fact goal, .fact other => goal = other
  | .assign target value, .assign other otherValue =>
      target = other ∧ ∀ bindings, value.evaluate bindings = otherValue.evaluate bindings
  | _, _ => False

/-- Statements of one kind with the same head, and with goals that correspond. -/
def Statement.SameValues : Statement → Statement → Prop
  | .clause (.fact head), .clause (.fact other) => head = other
  | .clause (.rule head body), .clause (.rule other otherBody) =>
      head = other ∧ List.Forall₂ Goal.SameValue body otherBody
  | .query goals, .query others => List.Forall₂ Goal.SameValue goals others
  | _, _ => False

theorem Goal.sameValue_reread {goal : Goal} (hgoal : goal.Printable) :
    goal.reread.SameValue goal := by
  cases goal with
  | fact goal => rfl
  | assign target value =>
      exact ⟨rfl, fun bindings => Expr.evaluate_reread bindings hgoal.2⟩

theorem Query.sameValue_reread {goals : Query} (hgoals : ∀ goal ∈ goals, goal.Printable) :
    List.Forall₂ Goal.SameValue (Query.reread goals) goals := by
  rw [Query.reread, List.forall₂_map_left_iff, List.forall₂_same]
  exact fun goal hgoal => goal.sameValue_reread (hgoals goal hgoal)

theorem Statement.sameValues_reread {statement : Statement} (hstatement : statement.Printable) :
    statement.reread.SameValues statement := by
  match statement with
  | .clause (.fact head) => rfl
  | .clause (.rule head body) => exact ⟨rfl, Query.sameValue_reread hstatement.2.2⟩
  | .query goals => exact Query.sameValue_reread hstatement.2

theorem Query.reread_eq_self {goals : Query} (hfacts : ∀ goal ∈ goals, ¬ goal.IsAssignment) :
    Query.reread goals = goals := by
  have hsame : ∀ goal ∈ goals, goal.reread = id goal := by
    intro goal hgoal
    cases goal with
    | fact goal => rfl
    | assign target value => exact absurd trivial (hfacts _ hgoal)
  rw [Query.reread, List.map_congr_left hsame, List.map_id]

theorem Statement.reread_eq_self {statement : Statement}
    (hfacts : ∀ goal ∈ statement.goals, ¬ goal.IsAssignment) : statement.reread = statement := by
  match statement with
  | .clause (.fact head) => rfl
  | .clause (.rule head body) =>
      have hbody : Query.reread body = body := Query.reread_eq_self hfacts
      rw [reread, Clause.reread, hbody]
  | .query goals =>
      have hgoals : Query.reread goals = goals := Query.reread_eq_self hfacts
      rw [reread, hgoals]

end Horn
