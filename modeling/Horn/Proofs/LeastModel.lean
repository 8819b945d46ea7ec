/-
Truth in a set of ground trees.  The least set in which the clauses of a
program are true is what the program says; the engine's own equality is read as
equality of trees.
-/
import Mathlib.Order.Bounds.Defs
import Horn.Proofs.RuleFrame

namespace Horn

/-- Goals with an effect are not true of anything. -/
def Builtin.Holds (valuation : Valuation) : Builtin → Prop
  | .unify left right => left.eval valuation = right.eval valuation
  | .succeed => True
  | .fail => False
  | .write _ => False
  | .assert _ => False

/-- A user predicate is true of what is in the set; assignments are not read as
goals that are true or false. -/
def Goal.Holds (model : Set Tree) (valuation : Valuation) : Goal → Prop
  | .fact goal =>
      match Builtin.ofFact? goal with
      | some builtin => builtin.Holds valuation
      | none => goal.toTerm.eval valuation ∈ model
  | .assign _ _ => False

def Query.Holds (model : Set Tree) (valuation : Valuation) (goals : Query) : Prop :=
  ∀ goal ∈ goals, goal.Holds model valuation

/-- Every instance of a fact is there, and every instance of a rule's head
whose body holds. -/
def Clause.Holds (model : Set Tree) : Clause → Prop
  | .fact head => ∀ valuation : Valuation, head.toTerm.eval valuation ∈ model
  | .rule head body => ∀ valuation : Valuation,
      Query.Holds model valuation body → head.toTerm.eval valuation ∈ model

/-- The sets of ground trees in which a program's clauses are true. -/
def models (program : List Statement) : Set (Set Tree) :=
  { model | ∀ clause, .clause clause ∈ program → clause.Holds model }

/-- What is in every model of a program. -/
def leastModel (program : List Statement) : Set Tree :=
  { tree | ∀ model ∈ models program, tree ∈ model }

theorem Goal.Holds.mono {model larger : Set Tree} (hlarger : model ⊆ larger)
    {valuation : Valuation} {goal : Goal} (hgoal : goal.Holds model valuation) :
    goal.Holds larger valuation := by
  cases goal with
  | assign target value => exact hgoal
  | fact goal =>
      simp only [Holds] at hgoal ⊢
      cases hbuiltin : Builtin.ofFact? goal with
      | none =>
          rw [hbuiltin] at hgoal
          exact hlarger hgoal
      | some builtin =>
          rw [hbuiltin] at hgoal
          exact hgoal

theorem isLeast_leastModel (program : List Statement) :
    IsLeast (models program) (leastModel program) := by
  have hsubset : ∀ model ∈ models program, leastModel program ⊆ model :=
    fun model hmodel tree htree => htree model hmodel
  refine ⟨fun clause hclause => ?_, hsubset⟩
  cases clause with
  | fact head =>
      intro valuation model hmodel
      exact hmodel _ hclause valuation
  | rule head body =>
      intro valuation hbody model hmodel
      have hholds : Query.Holds model valuation body :=
        fun goal hgoal => (hbody goal hgoal).mono (hsubset model hmodel)
      exact hmodel _ hclause valuation hholds

theorem Goal.holds_rename {model : Set Tree} {valuation : Valuation} {image : Var → Var}
    {goal : Goal} :
    (goal.rename image).Holds model valuation ↔
      goal.Holds model fun name => valuation (image name) := by
  cases goal with
  | assign target value => exact Iff.rfl
  | fact goal =>
      simp only [Goal.rename, Holds, Builtin.ofFact?_rename]
      cases hbuiltin : Builtin.ofFact? goal with
      | none =>
          simp only [Option.map_none]
          rw [goal.toTerm_rename, Term.eval_rename]
      | some builtin =>
          cases builtin with
          | unify left right =>
              simp only [Option.map_some, Builtin.rename, Builtin.Holds, Term.eval_rename]
          | _ => exact Iff.rfl

theorem Query.holds_rename {model : Set Tree} {valuation : Valuation} {image : Var → Var}
    {goals : Query} :
    Query.Holds model valuation (Query.rename image goals) ↔
      Query.Holds model (fun name => valuation (image name)) goals := by
  simp only [Query.Holds, Query.rename, List.forall_mem_map, Goal.holds_rename]

/-- A clause is true whatever its variables are called. -/
theorem Clause.Holds.rename {model : Set Tree} {clause : Clause} (hclause : clause.Holds model)
    (image : Var → Var) : (clause.rename image).Holds model := by
  cases clause with
  | fact head =>
      intro valuation
      rw [head.toTerm_rename, Term.eval_rename]
      exact hclause _
  | rule head body =>
      intro valuation hbody
      rw [head.toTerm_rename, Term.eval_rename]
      exact hclause _ (Query.holds_rename.mp hbody)

/-- The stored clauses of a program are true in each of its models. -/
theorem holds_ofStatements {program : List Statement} {model : Set Tree}
    (hmodel : model ∈ models program) :
    (Theory.ofStatements program).All (Clause.Holds model) :=
  Theory.all_ofStatements fun clause hclause _ => (hmodel clause hclause).rename _

end Horn
