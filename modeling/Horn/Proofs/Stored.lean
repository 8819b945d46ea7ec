/-
What is in a store.  The clauses of a program are found under their signatures,
with their variables renamed and otherwise as they are.
-/
import Mathlib.Tactic.Common
import Horn.Theory

namespace Horn

namespace Theory

/-- All stored clauses have a property. -/
def All (property : Clause → Prop) (theory : Theory) : Prop :=
  ∀ signature, ∀ clause ∈ theory.lookup signature, property clause

theorem all_empty (property : Clause → Prop) : empty.All property := by
  intro signature clause hmem
  simp at hmem

theorem All.insert {property : Clause → Prop} {theory : Theory} (htheory : theory.All property)
    {clause : Clause} (hclause : property (clause.renameApart storeStem theory.nextVar).1) :
    (theory.insert clause).All property := by
  intro signature stored hmem
  rw [lookup_insert] at hmem
  split at hmem
  · rcases List.mem_append.mp hmem with hmem | hmem
    · exact htheory signature stored hmem
    · rw [List.mem_singleton.mp hmem]
      exact hclause
  · exact htheory signature stored hmem

theorem All.insertAll {property : Clause → Prop} {theory : Theory} {statements : List Statement}
    (htheory : theory.All property)
    (hstatements : ∀ clause, .clause clause ∈ statements → ∀ start,
      property (clause.renameApart storeStem start).1) :
    (theory.insertAll statements).All property := by
  induction statements generalizing theory with
  | nil => exact htheory
  | cons statement statements ih =>
      have hrest : ∀ clause, .clause clause ∈ statements → ∀ start,
          property (clause.renameApart storeStem start).1 :=
        fun clause hmem => hstatements clause (List.mem_cons_of_mem _ hmem)
      cases statement with
      | query goals => exact ih htheory hrest
      | clause clause =>
          exact ih (htheory.insert (hstatements clause List.mem_cons_self theory.nextVar)) hrest

/-- A store built from a program has what the renamed clauses of the program
have. -/
theorem all_ofStatements {property : Clause → Prop} {statements : List Statement}
    (hstatements : ∀ clause, .clause clause ∈ statements → ∀ start,
      property (clause.renameApart storeStem start).1) :
    (ofStatements statements).All property :=
  (all_empty property).insertAll hstatements

end Theory

end Horn
