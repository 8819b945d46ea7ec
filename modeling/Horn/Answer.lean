/-
Answers as they are shown: the values of a query's own variables.
-/
import Horn.Bindings

namespace Horn

/-- Variables with their values, in the order of the query. -/
structure Answer where
  bindings : List (Var × Term)

namespace Answer

/-- Leave out variables without a value and those that start with an
underscore. -/
def ofSolution (wanted : List Var) (solution : Bindings) : Answer :=
  ⟨wanted.filterMap fun name =>
    if name.toList.head? = some '_' then none
    else
      let value := solution.value name
      if value.isVar then none else some (name, value)⟩

def get? (answer : Answer) (name : Var) : Option Term :=
  answer.bindings.lookup name

def isEmpty (answer : Answer) : Bool :=
  answer.bindings.isEmpty

/-- An answer without values is a plain yes. -/
def render (answer : Answer) : String :=
  if answer.isEmpty then "Yes."
  else ", ".intercalate
    (answer.bindings.map fun entry => entry.1 ++ " = " ++ entry.2.render)

end Answer

/-- What is shown for a query: an answer, or that there is none left. -/
inductive Reply
  | answer (found : Answer)
  | exhausted

def Reply.render : Reply → String
  | .answer found => found.render
  | .exhausted => "No."

end Horn
