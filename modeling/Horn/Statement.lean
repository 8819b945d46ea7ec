/-
Goals, clauses and statements.  A program is a list of statements; its clauses
are stored and its queries are run.
-/
import Horn.Expr

namespace Horn

/-- A goal is a fact to prove, or a variable to set to the value of an
expression. -/
inductive Goal
  | fact (goal : Fact)
  | assign (target : Var) (value : Expr)

/-- Goals to prove together, from left to right. -/
abbrev Query := List Goal

inductive Clause
  | fact (head : Fact)
  | rule (head : Fact) (body : Query)

inductive Statement
  | clause (entry : Clause)
  | query (goals : Query)

def Clause.head : Clause → Fact
  | .fact head => head
  | .rule head _ => head

def Clause.signature (clause : Clause) : Signature :=
  clause.head.signature

/-- A query has no signature, and is never stored. -/
def Statement.signature? : Statement → Option Signature
  | .clause entry => some entry.signature
  | .query _ => none

/-- The target of an assignment comes before its expression. -/
def Goal.occurrences : Goal → List Var
  | .fact goal => goal.occurrences
  | .assign target value => target :: value.occurrences

def Query.occurrences (goals : Query) : List Var :=
  goals.flatMap Goal.occurrences

/-- The head comes before the body. -/
def Clause.occurrences : Clause → List Var
  | .fact head => head.occurrences
  | .rule head body => head.occurrences ++ Query.occurrences body

def Statement.occurrences : Statement → List Var
  | .clause entry => entry.occurrences
  | .query goals => Query.occurrences goals

def Goal.variables (goal : Goal) : List Var :=
  goal.occurrences.eraseDups

def Query.variables (goals : Query) : List Var :=
  (Query.occurrences goals).eraseDups

def Clause.variables (clause : Clause) : List Var :=
  clause.occurrences.eraseDups

def Statement.variables : Statement → List Var
  | .clause entry => entry.variables
  | .query goals => Query.variables goals

theorem Statement.variables_eq (statement : Statement) :
    statement.variables = statement.occurrences.eraseDups := by
  cases statement <;> rfl

def Goal.rename (image : Var → Var) : Goal → Goal
  | .fact goal => .fact (goal.rename image)
  | .assign target value => .assign (image target) (value.rename image)

def Query.rename (image : Var → Var) (goals : Query) : Query :=
  goals.map (Goal.rename image)

def Clause.rename (image : Var → Var) : Clause → Clause
  | .fact head => .fact (head.rename image)
  | .rule head body => .rule (head.rename image) (Query.rename image body)

def Statement.rename (image : Var → Var) : Statement → Statement
  | .clause entry => .clause (entry.rename image)
  | .query goals => .query (Query.rename image goals)

def Goal.render : Goal → String
  | .fact goal => goal.render
  | .assign target value => target ++ " is " ++ value.render

/-- The goals with a comma and a space between them. -/
def Query.render (goals : Query) : String :=
  ", ".intercalate (goals.map Goal.render)

/-- The text of a clause, without the dot that ends it. -/
def Clause.render : Clause → String
  | .fact head => head.render
  | .rule head body => head.render ++ " :- " ++ Query.render body

def Statement.render : Statement → String
  | .clause entry => entry.render ++ "."
  | .query goals => "?- " ++ Query.render goals ++ "."

def Goal.equal : Goal → Goal → Bool
  | .fact left, .fact right => left == right
  | .assign left leftValue, .assign right rightValue =>
      left = right && leftValue == rightValue
  | _, _ => false

instance : BEq Goal := ⟨Goal.equal⟩

def Clause.equal : Clause → Clause → Bool
  | .fact left, .fact right => left == right
  | .rule left leftBody, .rule right rightBody => left == right && leftBody == rightBody
  | _, _ => false

instance : BEq Clause := ⟨Clause.equal⟩

def Statement.equal : Statement → Statement → Bool
  | .clause left, .clause right => left == right
  | .query left, .query right => left == right
  | _, _ => false

instance : BEq Statement := ⟨Statement.equal⟩

end Horn
