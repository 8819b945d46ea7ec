/-
Renamed terms, goals and clauses.  A renaming changes the occurrences one by one,
two renamings after each other are one, and only the names that occur matter.
-/
import Mathlib.Data.List.Basic
import Horn.Proofs.Tree
import Horn.Renaming

namespace Horn

/-- A fact is found in the term that it becomes. -/
theorem Fact.toTerm_injective {left right : Fact} (heq : left.toTerm = right.toTerm) :
    left = right := by
  obtain ⟨functor, args⟩ := left
  obtain ⟨functor', args'⟩ := right
  injection heq with hfunctor hargs
  exact congrArg₂ Fact.mk hfunctor hargs

theorem Fact.toTerm_rename (image : Var → Var) (fact : Fact) :
    (fact.rename image).toTerm = fact.toTerm.rename image :=
  fact.toTerm_subst _

/-- Renaming leaves a fact under its signature. -/
theorem Fact.signature_rename (image : Var → Var) (fact : Fact) :
    (fact.rename image).signature = fact.signature := by
  simp [Fact.rename, Fact.subst, Fact.signature, Term.substAll_eq_map]

section Occurrences

variable (image : Var → Var)

/-- Renaming acts on the occurrences one by one, and keeps their order. -/
theorem Term.occurrences_rename (term : Term) :
    (term.rename image).occurrences = term.occurrences.map image := by
  induction term with
  | fact functor args ih =>
      have hargs : ∀ arg ∈ args,
          (arg.subst fun name => .var (image name)).occurrences = arg.occurrences.map image := ih
      rw [rename, subst, substAll_eq_map, occurrences, occurrences, occurrencesAll_eq_flatMap,
        occurrencesAll_eq_flatMap, List.flatMap_map, List.map_flatMap]
      exact List.flatMap_congr hargs
  | _ => rfl

mutual

theorem Factor.occurrences_rename (factor : Factor) :
    (factor.rename image).occurrences = factor.occurrences.map image := by
  cases factor with
  | num value => rfl
  | var name => rfl
  | paren expr => exact Expr.occurrences_rename expr

theorem Product.occurrences_rename (product : Product) :
    (product.rename image).occurrences = product.occurrences.map image := by
  obtain ⟨left, op, right⟩ := product
  have hleft := Factor.occurrences_rename left
  cases right with
  | none => exact hleft
  | some right =>
      have hright := Factor.occurrences_rename right
      simp only [Product.rename, Product.occurrences, hleft, hright, List.map_append]

theorem Expr.occurrences_rename (expr : Expr) :
    (expr.rename image).occurrences = expr.occurrences.map image := by
  obtain ⟨left, op, right⟩ := expr
  have hleft := Product.occurrences_rename left
  cases right with
  | none => exact hleft
  | some right =>
      have hright := Product.occurrences_rename right
      simp only [Expr.rename, Expr.occurrences, hleft, hright, List.map_append]

end

theorem Fact.occurrences_rename (fact : Fact) :
    (fact.rename image).occurrences = fact.occurrences.map image := by
  have hterm := fact.toTerm.occurrences_rename image
  rwa [← fact.toTerm_rename] at hterm

theorem Goal.occurrences_rename (goal : Goal) :
    (goal.rename image).occurrences = goal.occurrences.map image := by
  cases goal with
  | fact goal => exact goal.occurrences_rename image
  | assign target value => exact congrArg (image target :: ·) (value.occurrences_rename image)

theorem Query.occurrences_rename (goals : Query) :
    Query.occurrences (Query.rename image goals) = (Query.occurrences goals).map image := by
  rw [Query.occurrences, Query.rename, Query.occurrences, List.flatMap_map, List.map_flatMap]
  exact List.flatMap_congr fun goal _ => goal.occurrences_rename image

theorem Clause.occurrences_rename (clause : Clause) :
    (clause.rename image).occurrences = clause.occurrences.map image := by
  cases clause with
  | fact head => exact head.occurrences_rename image
  | rule head body =>
      rw [Clause.rename, occurrences, occurrences, head.occurrences_rename,
        Query.occurrences_rename, List.map_append]

/-- The occurrences of any syntax tree follow its variables. -/
theorem Statement.occurrences_rename (statement : Statement) :
    (statement.rename image).occurrences = statement.occurrences.map image := by
  cases statement with
  | clause entry => exact entry.occurrences_rename image
  | query goals => exact Query.occurrences_rename image goals

/-- Names that are told apart under the new names are the same ones, each once. -/
theorem eraseDups_map {names : List Var}
    (hinjective : ∀ left ∈ names, ∀ right ∈ names, image left = image right → left = right) :
    (names.map image).eraseDups = names.eraseDups.map image := by
  induction hlength : names.length using Nat.strongRecOn generalizing names with
  | ind length ih =>
      cases names with
      | nil => rfl
      | cons name names =>
          have hothers : (names.map image).filter (fun other => !other == image name) =
              (names.filter fun other => !other == name).map image := by
            rw [List.filter_map]
            refine congrArg (List.map image) (List.filter_congr fun other hother => ?_)
            have hiff : image other = image name ↔ other = name :=
              ⟨hinjective other (List.mem_cons_of_mem _ hother) name List.mem_cons_self,
                congrArg image⟩
            simp only [Function.comp, beq_eq_decide, hiff]
          have hshorter : (names.filter fun other => !other == name).length < length := by
            rw [← hlength, List.length_cons]
            exact Nat.lt_succ_of_le (List.length_filter_le _ _)
          have hmem : ∀ other ∈ names.filter (fun other => !other == name), other ∈ name :: names :=
            fun other hother => List.mem_cons_of_mem _ (List.mem_of_mem_filter hother)
          rw [List.map_cons, List.eraseDups_cons, List.eraseDups_cons, List.map_cons, hothers,
            ih _ hshorter (fun left hleft right hright =>
              hinjective left (hmem left hleft) right (hmem right hright)) rfl]

/-- A renaming that tells the variables of a fact apart renames each of them once. -/
theorem Fact.variables_rename {fact : Fact}
    (hinjective : ∀ left ∈ fact.occurrences, ∀ right ∈ fact.occurrences,
      image left = image right → left = right) :
    (fact.rename image).variables = fact.variables.map image := by
  rw [Fact.variables, fact.occurrences_rename, eraseDups_map image hinjective, Fact.variables]

end Occurrences

section Composition

variable {first second both : Var → Var}

/-- Only what a substitution does to the variables of a term matters to it. -/
theorem Term.subst_congr {left right : Var → Term} {term : Term}
    (hsame : ∀ name ∈ term.occurrences, left name = right name) :
    term.subst left = term.subst right := by
  induction term with
  | var name => exact hsame name (by simp)
  | fact functor args ih =>
      rw [subst, subst, substAll_eq_map, substAll_eq_map]
      exact congrArg _ (List.map_congr_left fun arg harg => ih arg harg fun name hname =>
        hsame name (mem_occurrences_fact.mpr ⟨arg, harg, hname⟩))
  | _ => rfl

/-- Two substitutions after each other are one. -/
theorem Term.subst_subst (inner outer : Var → Term) (term : Term) :
    (term.subst inner).subst outer = term.subst fun name => (inner name).subst outer := by
  induction term with
  | fact functor args ih =>
      have hargs : ∀ arg ∈ args, (arg.subst inner).subst outer =
          arg.subst fun name => (inner name).subst outer := ih
      rw [subst, subst, subst, substAll_eq_map, substAll_eq_map, substAll_eq_map, List.map_map]
      exact congrArg _ (List.map_congr_left hargs)
  | _ => rfl

/-- Two renamings are one on the names where they agree with it. -/
theorem Term.rename_rename {term : Term}
    (hboth : ∀ name ∈ term.occurrences, second (first name) = both name) :
    (term.rename first).rename second = term.rename both := by
  rw [rename, rename, subst_subst]
  exact subst_congr fun name hname => congrArg Term.var (hboth name hname)

theorem Term.rename_eq_self {image : Var → Var} {term : Term}
    (himage : ∀ name ∈ term.occurrences, image name = name) : term.rename image = term := by
  induction term with
  | var name => exact congrArg Term.var (himage name (by simp))
  | fact functor args ih =>
      rw [rename, subst, substAll_eq_map]
      refine congrArg _ ((List.map_congr_left fun arg harg => ?_).trans (List.map_id args))
      exact ih arg harg fun name hname => himage name (mem_occurrences_fact.mpr ⟨arg, harg, hname⟩)
  | _ => rfl

mutual

theorem Factor.rename_rename {factor : Factor}
    (hboth : ∀ name ∈ factor.occurrences, second (first name) = both name) :
    (factor.rename first).rename second = factor.rename both := by
  cases factor with
  | num value => rfl
  | var name => exact congrArg Factor.var (hboth name List.mem_cons_self)
  | paren expr => exact congrArg Factor.paren (Expr.rename_rename hboth)

theorem Product.rename_rename {product : Product}
    (hboth : ∀ name ∈ product.occurrences, second (first name) = both name) :
    (product.rename first).rename second = product.rename both := by
  obtain ⟨left, op, right⟩ := product
  cases right with
  | none =>
      have hleft : (left.rename first).rename second = left.rename both :=
        Factor.rename_rename hboth
      simp only [Product.rename, hleft]
  | some right =>
      have hleft : (left.rename first).rename second = left.rename both :=
        Factor.rename_rename fun name hname => hboth name (List.mem_append_left _ hname)
      have hright : (right.rename first).rename second = right.rename both :=
        Factor.rename_rename fun name hname => hboth name (List.mem_append_right _ hname)
      simp only [Product.rename, hleft, hright]

theorem Expr.rename_rename {expr : Expr}
    (hboth : ∀ name ∈ expr.occurrences, second (first name) = both name) :
    (expr.rename first).rename second = expr.rename both := by
  obtain ⟨left, op, right⟩ := expr
  cases right with
  | none =>
      have hleft : (left.rename first).rename second = left.rename both :=
        Product.rename_rename hboth
      simp only [Expr.rename, hleft]
  | some right =>
      have hleft : (left.rename first).rename second = left.rename both :=
        Product.rename_rename fun name hname => hboth name (List.mem_append_left _ hname)
      have hright : (right.rename first).rename second = right.rename both :=
        Product.rename_rename fun name hname => hboth name (List.mem_append_right _ hname)
      simp only [Expr.rename, hleft, hright]

end

theorem Fact.rename_rename {fact : Fact}
    (hboth : ∀ name ∈ fact.occurrences, second (first name) = both name) :
    (fact.rename first).rename second = fact.rename both := by
  have hterm : (fact.toTerm.rename first).rename second = fact.toTerm.rename both :=
    Term.rename_rename hboth
  rw [← toTerm_rename, ← toTerm_rename, ← toTerm_rename] at hterm
  exact Fact.toTerm_injective hterm

theorem Goal.rename_rename {goal : Goal}
    (hboth : ∀ name ∈ goal.occurrences, second (first name) = both name) :
    (goal.rename first).rename second = goal.rename both := by
  cases goal with
  | fact goal => exact congrArg Goal.fact (Fact.rename_rename hboth)
  | assign target value =>
      obtain ⟨htarget, hvalue⟩ := List.forall_mem_cons.mp hboth
      exact congrArg₂ Goal.assign htarget (Expr.rename_rename hvalue)

theorem Query.rename_rename {goals : Query}
    (hboth : ∀ name ∈ Query.occurrences goals, second (first name) = both name) :
    Query.rename second (Query.rename first goals) = Query.rename both goals := by
  rw [rename, rename, rename, List.map_map]
  exact List.map_congr_left fun goal hgoal => Goal.rename_rename fun name hname =>
    hboth name (List.mem_flatMap.mpr ⟨goal, hgoal, hname⟩)

/-- Renamings that agree on the variables of some goals rename them alike. -/
theorem Query.rename_congr {goals : Query}
    (hsame : ∀ name ∈ Query.occurrences goals, first name = second name) :
    Query.rename first goals = Query.rename second goals := by
  have hfirst : Query.rename id (Query.rename first goals) = Query.rename first goals :=
    Query.rename_rename fun _ _ => rfl
  exact hfirst.symm.trans (Query.rename_rename hsame)

/-- Where two renamings compose to a third on the variables of a clause, so they do on the
clause. -/
theorem Clause.rename_rename {clause : Clause}
    (hboth : ∀ name ∈ clause.occurrences, second (first name) = both name) :
    (clause.rename first).rename second = clause.rename both := by
  cases clause with
  | fact head => exact congrArg Clause.fact (Fact.rename_rename hboth)
  | rule head body =>
      obtain ⟨hhead, hbody⟩ := List.forall_mem_append.mp hboth
      exact congrArg₂ Clause.rule (Fact.rename_rename hhead) (Query.rename_rename hbody)

theorem Statement.rename_rename {statement : Statement}
    (hboth : ∀ name ∈ statement.occurrences, second (first name) = both name) :
    (statement.rename first).rename second = statement.rename both := by
  cases statement with
  | clause entry => exact congrArg Statement.clause (Clause.rename_rename hboth)
  | query goals => exact congrArg Statement.query (Query.rename_rename hboth)

end Composition

mutual

theorem Factor.rename_id (factor : Factor) : factor.rename id = factor := by
  cases factor with
  | num value => rfl
  | var name => rfl
  | paren expr => exact congrArg Factor.paren expr.rename_id

theorem Product.rename_id (product : Product) : product.rename id = product := by
  obtain ⟨left, op, right⟩ := product
  cases right with
  | none => simp only [Product.rename, left.rename_id]
  | some right => simp only [Product.rename, left.rename_id, right.rename_id]

theorem Expr.rename_id (expr : Expr) : expr.rename id = expr := by
  obtain ⟨left, op, right⟩ := expr
  cases right with
  | none => simp only [Expr.rename, left.rename_id]
  | some right => simp only [Expr.rename, left.rename_id, right.rename_id]

end

theorem Fact.rename_id (fact : Fact) : fact.rename id = fact := by
  apply Fact.toTerm_injective
  rw [Fact.toTerm_rename]
  exact Term.rename_eq_self fun _ _ => rfl

theorem Goal.rename_id (goal : Goal) : goal.rename id = goal := by
  cases goal with
  | fact goal => exact congrArg Goal.fact goal.rename_id
  | assign target value => exact congrArg (Goal.assign target) value.rename_id

theorem Query.rename_id (goals : Query) : Query.rename id goals = goals :=
  List.map_id'' Goal.rename_id goals

theorem Statement.rename_id (statement : Statement) : statement.rename id = statement := by
  cases statement with
  | clause entry =>
      apply congrArg Statement.clause
      cases entry with
      | fact head => exact congrArg Clause.fact head.rename_id
      | rule head body => exact congrArg₂ Clause.rule head.rename_id (Query.rename_id body)
  | query goals => exact congrArg Statement.query (Query.rename_id goals)

end Horn
