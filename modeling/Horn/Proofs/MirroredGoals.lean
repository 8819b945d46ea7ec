/-
Goals and clauses under other names.  A goal without effects finds alike results
on both sides, and so does the head of a clause, of which each side takes a copy
of its own.
-/
import Horn.Proofs.Branches
import Horn.Proofs.MirroredUnification
import Horn.Proofs.Renamed

namespace Horn

/-- A goal that is decided by what is bound: it has no effect, but may be an
assignment. -/
def Goal.Quiet : Goal → Prop
  | .fact goal => (Goal.fact goal).Logical
  | .assign _ _ => True

/-- A clause whose body has no effects. -/
def Clause.Quiet : Clause → Prop
  | .fact _ => True
  | .rule _ body => ∀ goal ∈ body, goal.Quiet

theorem Goal.Quiet.rename {goal : Goal} (hgoal : goal.Quiet) (image : Var → Var) :
    (goal.rename image).Quiet := by
  cases goal with
  | fact goal => exact (show (Goal.fact goal).Logical from hgoal).rename image
  | assign target value => exact trivial

theorem Query.quiet_rename {goals : Query} (hgoals : ∀ goal ∈ goals, goal.Quiet)
    (image : Var → Var) : ∀ goal ∈ Query.rename image goals, goal.Quiet := by
  intro goal hgoal
  obtain ⟨source, hsource, rfl⟩ := List.mem_map.mp hgoal
  exact (hgoals source hsource).rename image

theorem Clause.Quiet.rename {clause : Clause} (hclause : clause.Quiet) (image : Var → Var) :
    (clause.rename image).Quiet := by
  cases clause with
  | fact head => exact trivial
  | rule head body => exact Query.quiet_rename hclause image

section Clear

variable {moved : Var → Prop}

/-- The functors of goals and heads do not matter. -/
def Fact.Clear (moved : Var → Prop) (fact : Fact) : Prop :=
  ∀ arg ∈ fact.args, arg.Clear moved

def Goal.Clear (moved : Var → Prop) : Goal → Prop
  | .fact goal => goal.Clear moved
  | .assign _ _ => True

def Clause.Clear (moved : Var → Prop) : Clause → Prop
  | .fact head => head.Clear moved
  | .rule head body => head.Clear moved ∧ ∀ goal ∈ body, goal.Clear moved

theorem Fact.Clear.rename {fact : Fact} (hfact : fact.Clear moved) (image : Var → Var) :
    (fact.rename image).Clear moved :=
  Fact.forall_args_rename fun arg harg => (hfact arg harg).subst fun name _ => .var (image name)

theorem Goal.Clear.rename {goal : Goal} (hgoal : goal.Clear moved) (image : Var → Var) :
    (goal.rename image).Clear moved := by
  cases goal with
  | fact goal => exact Fact.Clear.rename hgoal image
  | assign target value => exact trivial

theorem Clause.Clear.rename {clause : Clause} (hclause : clause.Clear moved)
    (image : Var → Var) : (clause.rename image).Clear moved := by
  cases clause with
  | fact head => exact Fact.Clear.rename hclause image
  | rule head body =>
      refine ⟨hclause.1.rename image, fun goal hgoal => ?_⟩
      obtain ⟨source, hsource, rfl⟩ := List.mem_map.mp hgoal
      exact (hclause.2 source hsource).rename image

end Clear

variable {moved : Var → Prop} {naming : Naming moved}

/-- A goal of this side, without effects. -/
structure Naming.Takes (naming : Naming moved) (goal : Goal) : Prop where
  quiet : goal.Quiet
  clear : goal.Clear moved
  names : ∀ name ∈ goal.occurrences, name ∈ naming.source

/-- The arguments of a goal or of a head are terms of this side. -/
def Naming.CoversFact (naming : Naming moved) (fact : Fact) : Prop :=
  ∀ arg ∈ fact.args, naming.Covers arg

theorem Fact.Clear.covers {fact : Fact} (hfact : fact.Clear moved)
    (hnames : ∀ name ∈ fact.occurrences, name ∈ naming.source) : naming.CoversFact fact :=
  fun arg harg => ⟨hfact arg harg, fun name hname =>
    hnames name (Fact.mem_occurrences.mpr ⟨arg, harg, hname⟩)⟩

theorem Naming.CoversFact.names {fact : Fact} (hfact : naming.CoversFact fact) :
    ∀ name ∈ fact.occurrences, name ∈ naming.source := by
  intro name hname
  obtain ⟨arg, harg, hname⟩ := Fact.mem_occurrences.mp hname
  exact (hfact arg harg).2 name hname

theorem Naming.CoversFact.extend {fact : Fact} (hfact : naming.CoversFact fact)
    {larger : Naming moved} (hextends : larger.Extends naming) : larger.CoversFact fact :=
  fun arg harg => (hfact arg harg).extend hextends

theorem Naming.CoversFact.rename_extend {fact : Fact} (hfact : naming.CoversFact fact)
    {larger : Naming moved} (hextends : larger.Extends naming) :
    fact.rename larger.toFun = fact.rename naming.toFun := by
  apply Fact.toTerm_injective
  rw [Fact.toTerm_rename, Fact.toTerm_rename]
  exact Term.subst_congr fun name hname =>
    congrArg Term.var (hextends.agrees name (hfact.names name hname))

theorem Naming.Takes.extend {goal : Goal} (htakes : naming.Takes goal) {larger : Naming moved}
    (hextends : larger.Extends naming) : larger.Takes goal :=
  ⟨htakes.quiet, htakes.clear, fun name hname => hextends.source (htakes.names name hname)⟩

theorem Query.rename_extend {goals : Query} (hgoals : ∀ goal ∈ goals, naming.Takes goal)
    {larger : Naming moved} (hextends : larger.Extends naming) :
    Query.rename larger.toFun goals = Query.rename naming.toFun goals := by
  apply Query.rename_congr
  intro name hname
  obtain ⟨goal, hgoal, hname⟩ := List.mem_flatMap.mp hname
  exact hextends.agrees name ((hgoals goal hgoal).names name hname)

theorem Naming.Takes.covers {goal : Fact} (htakes : naming.Takes (.fact goal)) :
    naming.CoversFact goal :=
  Fact.Clear.covers htakes.clear htakes.names

theorem Naming.toFun_injective {first second : Var} (hfirst : first ∈ naming.source)
    (hsecond : second ∈ naming.source) (heq : naming.toFun first = naming.toFun second) :
    first = second := by
  rw [← naming.left_inv' hfirst, heq]
  exact naming.left_inv' hsecond

section Goals

variable {left right : Bindings}

theorem Mirrors.groundFact (hmirrors : Mirrors naming left right) {goal : Fact}
    (hgoal : naming.CoversFact goal) :
    right.groundFact (goal.rename naming.toFun) = (left.groundFact goal).rename naming.toFun := by
  apply Fact.toTerm_injective
  rw [Fact.toTerm_rename, Bindings.groundFact, Bindings.groundFact, Fact.toTerm_subst,
    Fact.toTerm_subst, Fact.toTerm_rename]
  exact ground_rename_of_values fun name hname => hmirrors.value (hgoal.names name hname)

theorem Mirrors.covers_groundFact (hmirrors : Mirrors naming left right) {goal : Fact}
    (hgoal : naming.CoversFact goal) : naming.CoversFact (left.groundFact goal) := by
  intro arg harg
  rw [Bindings.groundFact, Fact.subst, Term.substAll_eq_map] at harg
  obtain ⟨source, hsource, rfl⟩ := List.mem_map.mp harg
  exact hmirrors.there.within.ground (Naming.stable_covers naming) (hgoal source hsource)

theorem Naming.CoversFact.variables_rename {fact : Fact} (hfact : naming.CoversFact fact) :
    (fact.rename naming.toFun).variables = fact.variables.map naming.toFun :=
  Fact.variables_rename naming.toFun fun first hfirst second hsecond =>
    naming.toFun_injective (hfact.names first hfirst) (hfact.names second hsecond)

/-- A goal of the engine finds alike results. -/
theorem Mirrors.prove (hmirrors : Mirrors naming left right) {goal : Fact} {builtin : Builtin}
    (htakes : naming.Takes (.fact goal)) (hbuiltin : Builtin.ofFact? goal = some builtin)
    (env env' : Environment) :
    Option.Rel (Mirrors naming) (builtin.prove env left).result
      ((builtin.rename naming.toFun).prove env' right).result := by
  have hlogical := htakes.quiet builtin hbuiltin
  cases builtin with
  | unify first second =>
      obtain ⟨hfirst, hsecond⟩ := Builtin.args_unify hbuiltin
      exact hmirrors.unify (htakes.covers first hfirst) (htakes.covers second hsecond)
  | succeed => exact .some hmirrors
  | fail => exact .none
  | write text => exact hlogical.elim
  | assert added => exact hlogical.elim

/-- Quiet goals of the engine show nothing. -/
theorem Goal.Quiet.events {goal : Fact} {builtin : Builtin} (hquiet : (Goal.fact goal).Quiet)
    (hbuiltin : Builtin.ofFact? goal = some builtin) (env : Environment) (bindings : Bindings) :
    (builtin.prove env bindings).events = [] :=
  Builtin.Logical.events (hquiet builtin hbuiltin) env bindings

end Goals

/-- The copies that the two sides take of a clause correspond. -/
def Naming.Copies (naming : Naming moved) (clause : Clause) (start start' : Nat) : Prop :=
  ∀ name ∈ clause.occurrences,
    (clause.renameApart freshStem start).2.image name ∈ naming.source ∧
    naming.toFun ((clause.renameApart freshStem start).2.image name) =
      (clause.renameApart freshStem start').2.image name

theorem Clause.used_renameApart (clause : Clause) (stem : String) (start start' : Nat) :
    (clause.renameApart stem start).2.used = (clause.renameApart stem start').2.used := by
  rw [Renaming.used, Renaming.used, seen_renameApart, seen_renameApart]

section Copies

variable {start start' : Nat} {clause : Clause}

theorem Naming.Copies.rename_fact (hcopies : naming.Copies clause start start') {head : Fact}
    (hnames : head.occurrences ⊆ clause.occurrences) :
    (head.rename (clause.renameApart freshStem start).2.image).rename naming.toFun =
      head.rename (clause.renameApart freshStem start').2.image :=
  Fact.rename_rename fun name hname => (hcopies name (hnames hname)).2

/-- The copies of a head go together with alike goals. -/
theorem Mirrors.unify_copies {left right : Bindings} (hmirrors : Mirrors naming left right)
    (hcopies : naming.Copies clause start start') {head goal : Fact} (hhead : head.Clear moved)
    (hnames : head.occurrences ⊆ clause.occurrences) (hgoal : naming.CoversFact goal) :
    Option.Rel (Mirrors naming)
      (Horn.unifyFacts (head.rename (clause.renameApart freshStem start).2.image) goal left)
      (Horn.unifyFacts (head.rename (clause.renameApart freshStem start').2.image)
        (goal.rename naming.toFun) right) := by
  have hcovers : naming.CoversFact
      (head.rename (clause.renameApart freshStem start).2.image) := by
    refine (hhead.rename _).covers fun name hname => ?_
    obtain ⟨source, hsource, rfl⟩ := Fact.mem_occurrences_rename.mp hname
    exact (hcopies source (hnames hsource)).1
  rw [← hcopies.rename_fact hnames]
  exact hmirrors.unifyFacts hcovers hgoal

variable {head : Fact} {body : Query}

theorem Naming.Copies.rename_body (hcopies : naming.Copies (.rule head body) start start') :
    Query.rename naming.toFun
        (Query.rename ((Clause.rule head body).renameApart freshStem start).2.image body) =
      Query.rename ((Clause.rule head body).renameApart freshStem start').2.image body :=
  Query.rename_rename fun name hname => (hcopies name (List.mem_append_right _ hname)).2

theorem Naming.Copies.takes_body (hcopies : naming.Copies (.rule head body) start start')
    (hquiet : ∀ goal ∈ body, goal.Quiet) (hclear : ∀ goal ∈ body, goal.Clear moved) :
    ∀ goal ∈ Query.rename ((Clause.rule head body).renameApart freshStem start).2.image body,
      naming.Takes goal := by
  intro goal hgoal
  obtain ⟨source, hsource, rfl⟩ := List.mem_map.mp hgoal
  refine ⟨(hquiet source hsource).rename _, (hclear source hsource).rename _,
    fun name hname => ?_⟩
  rw [source.occurrences_rename] at hname
  obtain ⟨inner, hinner, rfl⟩ := List.mem_map.mp hname
  exact (hcopies inner (List.mem_append_right _
    (List.mem_flatMap.mpr ⟨source, hsource, hinner⟩))).1

end Copies

end Horn
