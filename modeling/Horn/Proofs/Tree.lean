/-
Ground trees, and what terms and substitutions mean in them.  A valuation
gives every variable a tree; a term then has a value, and a substitution is a
set of equations between variables and terms.
-/
import Mathlib.Tactic.Common
import Horn.Bindings

namespace Horn

/-- Induction on a term with one hypothesis for each argument of a fact. -/
@[induction_eliminator]
theorem Term.inductionOn {motive : Term → Prop}
    (var : ∀ name, motive (.var name)) (atom : ∀ text, motive (.atom text))
    (str : ∀ text, motive (.str text)) (num : ∀ value, motive (.num value))
    (fact : ∀ functor args, (∀ arg ∈ args, motive arg) → motive (.fact functor args))
    (term : Term) : motive term := by
  refine @Term.rec motive (fun terms => ∀ term ∈ terms, motive term)
    var atom str num fact ?_ ?_ term
  · simp
  · intro head tail hhead htail other hother
    rcases List.mem_cons.mp hother with rfl | hother
    · exact hhead
    · exact htail other hother

/-- Finite ground trees.  A leaf is a text, whether it was written as an atom
or as a string, or the digits of a number. -/
inductive Tree
  | text (text : String)
  | number (digits : String)
  | node (functor : String) (children : List Tree)

mutual

/-- The number of leaves and nodes. -/
def Tree.size : Tree → Nat
  | .text _ => 1
  | .number _ => 1
  | .node _ children => 1 + Tree.sizeAll children

def Tree.sizeAll : List Tree → Nat
  | [] => 0
  | tree :: rest => tree.size + Tree.sizeAll rest

end

theorem Tree.size_le_sizeAll {tree : Tree} {trees : List Tree} (htree : tree ∈ trees) :
    tree.size ≤ Tree.sizeAll trees := by
  induction trees with
  | nil => simp at htree
  | cons head tail ih =>
      rw [Tree.sizeAll]
      rcases List.mem_cons.mp htree with rfl | htree
      · omega
      · have htail := ih htree
        omega

theorem Tree.size_lt_node {tree : Tree} {functor : String} {children : List Tree}
    (htree : tree ∈ children) : tree.size < (Tree.node functor children).size := by
  have hle := Tree.size_le_sizeAll htree
  rw [Tree.size]
  omega

/-- A tree for every variable. -/
abbrev Valuation := Var → Tree

mutual

/-- The tree of a term under a valuation. -/
def Term.eval (valuation : Valuation) : Term → Tree
  | .var name => valuation name
  | .atom text => .text text
  | .str text => .text text
  | .num value => .number (numberText value)
  | .fact functor args => .node functor (Term.evalAll valuation args)

def Term.evalAll (valuation : Valuation) : List Term → List Tree
  | [] => []
  | term :: rest => term.eval valuation :: Term.evalAll valuation rest

end

theorem Term.evalAll_eq_map (valuation : Valuation) (terms : List Term) :
    Term.evalAll valuation terms = terms.map (Term.eval valuation) := by
  induction terms with
  | nil => rfl
  | cons term rest ih => simp [Term.evalAll, ih]

theorem Term.eval_fact (valuation : Valuation) (functor : String) (args : List Term) :
    (Term.fact functor args).eval valuation =
      .node functor (args.map (Term.eval valuation)) := by
  rw [Term.eval, Term.evalAll_eq_map]

@[simp] theorem Term.mem_occurrences_var {name other : Var} :
    name ∈ (Term.var other).occurrences ↔ name = other := by
  simp [Term.occurrences]

@[simp] theorem Term.mem_occurrences_fact {name : Var} {functor : String} {args : List Term} :
    name ∈ (Term.fact functor args).occurrences ↔ ∃ arg ∈ args, name ∈ arg.occurrences := by
  rw [Term.occurrences, Term.occurrencesAll_eq_flatMap, List.mem_flatMap]

theorem Term.isGround_iff {term : Term} :
    term.isGround = true ↔ ∀ name, name ∉ term.occurrences := by
  rw [Term.isGround, List.isEmpty_iff, List.eq_nil_iff_forall_not_mem]

theorem Term.exists_eq_var {term : Term} (hterm : term.isVar = true) :
    ∃ name, term = .var name := by
  cases term with
  | var name => exact ⟨name, rfl⟩
  | _ => cases hterm

theorem Term.ne_var_of_not_isVar {term : Term} (hterm : term.isVar = false) (name : Var) :
    term ≠ .var name := by
  rintro rfl
  cases hterm

theorem Term.not_isVar_of_isGround {term : Term} (hterm : term.isGround = true) :
    term.isVar = false := by
  cases term with
  | var name => simp [isGround, occurrences] at hterm
  | _ => rfl

theorem Term.isGround_fact {functor : String} {args : List Term} :
    (Term.fact functor args).isGround = true ↔ ∀ arg ∈ args, arg.isGround = true := by
  simp only [Term.isGround_iff, Term.mem_occurrences_fact]
  constructor
  · intro hnone arg harg name hname
    exact hnone name ⟨arg, harg, hname⟩
  · rintro hargs name ⟨arg, harg, hname⟩
    exact hargs arg harg name hname

theorem Term.size_pos (term : Term) : 0 < term.size := by
  cases term <;> simp only [Term.size] <;> omega

/-- The value of a term says what the values of its variables are, and depends
on nothing else. -/
theorem Term.eval_eq_iff (term : Term) (left right : Valuation) :
    term.eval left = term.eval right ↔ ∀ name ∈ term.occurrences, left name = right name := by
  induction term with
  | var name => simp [Term.eval]
  | atom text => simp [Term.eval, Term.occurrences]
  | str text => simp [Term.eval, Term.occurrences]
  | num value => simp [Term.eval, Term.occurrences]
  | fact functor args ih =>
      rw [Term.eval_fact, Term.eval_fact, Tree.node.injEq, List.map_inj_left]
      simp only [true_and, Term.mem_occurrences_fact]
      constructor
      · rintro hargs name ⟨arg, harg, hname⟩
        exact (ih arg harg).mp (hargs arg harg) name hname
      · intro hnames arg harg
        exact (ih arg harg).mpr fun name hname => hnames name ⟨arg, harg, hname⟩

/-- Replacing variables by terms before taking the value is the same as giving
the variables those terms' values. -/
theorem Term.eval_subst (valuation : Valuation) (image : Var → Term) (term : Term) :
    (term.subst image).eval valuation = term.eval fun name => (image name).eval valuation := by
  induction term with
  | var name => simp [Term.subst, Term.eval]
  | atom text => simp [Term.subst, Term.eval]
  | str text => simp [Term.subst, Term.eval]
  | num value => simp [Term.subst, Term.eval]
  | fact functor args ih =>
      rw [Term.subst, Term.substAll_eq_map, Term.eval_fact, Term.eval_fact, List.map_map]
      congr 1
      exact List.map_congr_left ih

theorem Term.mem_occurrences_subst {name : Var} {image : Var → Term} {term : Term} :
    name ∈ (term.subst image).occurrences ↔
      ∃ source ∈ term.occurrences, name ∈ (image source).occurrences := by
  induction term with
  | var source => simp [Term.subst]
  | atom text => simp [Term.subst, Term.occurrences]
  | str text => simp [Term.subst, Term.occurrences]
  | num value => simp [Term.subst, Term.occurrences]
  | fact functor args ih =>
      simp only [Term.subst, Term.substAll_eq_map, Term.mem_occurrences_fact, List.mem_map,
        exists_exists_and_eq_and]
      constructor
      · rintro ⟨arg, harg, hname⟩
        obtain ⟨source, hsource, himage⟩ := (ih arg harg).mp hname
        exact ⟨source, ⟨arg, harg, hsource⟩, himage⟩
      · rintro ⟨source, ⟨arg, harg, hsource⟩, himage⟩
        exact ⟨arg, harg, (ih arg harg).mpr ⟨source, hsource, himage⟩⟩

theorem Term.subst_of_isGround {term : Term} (hterm : term.isGround = true)
    (image : Var → Term) : term.subst image = term := by
  induction term with
  | var name => simp [Term.isGround, Term.occurrences] at hterm
  | fact functor args ih =>
      rw [Term.subst, Term.substAll_eq_map]
      congr 1
      refine (List.map_congr_left fun arg harg => ?_).trans (List.map_id args)
      exact ih arg harg (Term.isGround_fact.mp hterm arg harg)
  | _ => rfl

theorem Term.eval_rename (valuation : Valuation) (image : Var → Var) (term : Term) :
    (term.rename image).eval valuation = term.eval fun name => valuation (image name) := by
  rw [Term.rename, Term.eval_subst]
  rfl

theorem Term.mem_occurrences_rename {name : Var} {image : Var → Var} {term : Term} :
    name ∈ (term.rename image).occurrences ↔ ∃ source ∈ term.occurrences, name = image source := by
  simp [Term.rename, Term.mem_occurrences_subst]

theorem Term.size_eval_arg (valuation : Valuation) (functor : String) {arg : Term}
    {args : List Term} (harg : arg ∈ args) :
    (arg.eval valuation).size < ((Term.fact functor args).eval valuation).size := by
  rw [Term.eval_fact]
  exact Tree.size_lt_node (List.mem_map_of_mem harg)

/-- A variable's tree is part of the tree of every term it occurs in. -/
theorem Term.size_le_of_mem_occurrences (valuation : Valuation) {name : Var} {term : Term}
    (hname : name ∈ term.occurrences) : (valuation name).size ≤ (term.eval valuation).size := by
  induction term with
  | var other =>
      rw [Term.mem_occurrences_var] at hname
      exact Nat.le_of_eq (by rw [hname, Term.eval])
  | atom text => simp [Term.occurrences] at hname
  | str text => simp [Term.occurrences] at hname
  | num value => simp [Term.occurrences] at hname
  | fact functor args ih =>
      obtain ⟨arg, harg, hname⟩ := Term.mem_occurrences_fact.mp hname
      have hlt := Term.size_eval_arg valuation functor harg
      have hle := ih arg harg hname
      omega

/-- And a smaller part, if the term is not that variable. -/
theorem Term.size_lt_of_mem_occurrences (valuation : Valuation) {name : Var} {term : Term}
    (hterm : term.isVar = false) (hname : name ∈ term.occurrences) :
    (valuation name).size < (term.eval valuation).size := by
  cases term with
  | var other => simp [Term.isVar] at hterm
  | atom text => simp [Term.occurrences] at hname
  | str text => simp [Term.occurrences] at hname
  | num value => simp [Term.occurrences] at hname
  | fact functor args =>
      obtain ⟨arg, harg, hname⟩ := Term.mem_occurrences_fact.mp hname
      have hlt := Term.size_eval_arg valuation functor harg
      have hle := Term.size_le_of_mem_occurrences valuation hname
      omega

/-- A valuation satisfies a substitution that it makes a set of true
equations: every key has the value of its term. -/
def Valuation.Satisfies (valuation : Valuation) (bindings : Bindings) : Prop :=
  ∀ name term, bindings.get? name = some term → valuation name = term.eval valuation

theorem Valuation.satisfies_empty (valuation : Valuation) : valuation.Satisfies .empty := by
  intro name term hget
  simp at hget

/-- Chains of variables lead to the same value. -/
theorem Valuation.Satisfies.eval_followUpTo {valuation : Valuation} {bindings : Bindings}
    (hsatisfies : valuation.Satisfies bindings) (fuel : Nat) (term : Term) :
    (bindings.followUpTo fuel term).eval valuation = term.eval valuation := by
  induction fuel generalizing term with
  | zero => rw [Bindings.followUpTo]
  | succ fuel ih =>
      cases term with
      | var name =>
          simp only [Bindings.followUpTo]
          cases hget : bindings.get? name with
          | none => rfl
          | some next =>
              calc (bindings.followUpTo fuel next).eval valuation
                  = next.eval valuation := ih next
                _ = valuation name := (hsatisfies name next hget).symm
                _ = (Term.var name).eval valuation := by rw [Term.eval]
      | _ => rfl

theorem Valuation.Satisfies.eval_dereference {valuation : Valuation} {bindings : Bindings}
    (hsatisfies : valuation.Satisfies bindings) (term : Term) :
    (bindings.dereference term).eval valuation = term.eval valuation :=
  hsatisfies.eval_followUpTo _ term

/-- Complete values are values, even where some are cut short at a cycle. -/
theorem Valuation.Satisfies.eval_valueUpTo {valuation : Valuation} {bindings : Bindings}
    (hsatisfies : valuation.Satisfies bindings) (fuel : Nat) (path : List Var) (name : Var) :
    (bindings.valueUpTo fuel path name).eval valuation = valuation name := by
  induction fuel generalizing path name with
  | zero => rw [Bindings.valueUpTo, Term.eval]
  | succ fuel ih =>
      rw [Bindings.valueUpTo]
      split
      · rw [Term.eval]
      · cases hget : bindings.get? name with
        | none => simp only [Term.eval]
        | some term =>
            simp only
            split
            · rw [Term.eval]
            · rw [Term.eval_subst, hsatisfies name term hget]
              exact (Term.eval_eq_iff term _ _).mpr fun other _ => ih (name :: path) other

theorem Valuation.Satisfies.eval_value {valuation : Valuation} {bindings : Bindings}
    (hsatisfies : valuation.Satisfies bindings) (name : Var) :
    (bindings.value name).eval valuation = valuation name :=
  hsatisfies.eval_valueUpTo _ [] name

theorem Valuation.Satisfies.eval_ground {valuation : Valuation} {bindings : Bindings}
    (hsatisfies : valuation.Satisfies bindings) (term : Term) :
    (bindings.ground term).eval valuation = term.eval valuation := by
  rw [Bindings.ground, Term.eval_subst]
  exact (Term.eval_eq_iff term _ _).mpr fun name _ => hsatisfies.eval_value name

end Horn
