/-
The branches of a search one by one.  A branch moves on from goal to goal,
down into the bodies of rules and back out of them, and a search only ever
stands on branches that have come about in this way.
-/
import Horn.Proofs.LeastModel

namespace Horn

def Builtin.Logical : Builtin → Prop
  | .unify _ _ => True
  | .succeed => True
  | .fail => True
  | .write _ => False
  | .assert _ => False

/-- A goal on a user predicate, or one of the engine's own that only succeeds,
fails or unifies. -/
def Goal.Logical : Goal → Prop
  | .fact goal => ∀ builtin, Builtin.ofFact? goal = some builtin → builtin.Logical
  | .assign _ _ => False

theorem Goal.logical_of_user {goal : Fact} (huser : Builtin.ofFact? goal = none) :
    (Goal.fact goal).Logical := by
  intro builtin hbuiltin
  rw [huser] at hbuiltin
  cases hbuiltin

def Query.Logical (goals : Query) : Prop :=
  ∀ goal ∈ goals, goal.Logical

def Clause.Logical : Clause → Prop
  | .fact _ => True
  | .rule _ body => Query.Logical body

theorem Goal.Logical.rename {goal : Goal} (hgoal : goal.Logical) (image : Var → Var) :
    (goal.rename image).Logical := by
  cases goal with
  | assign target value => exact hgoal
  | fact goal =>
      intro renamed hrenamed
      rw [Builtin.ofFact?_rename, Option.map_eq_some_iff] at hrenamed
      obtain ⟨builtin, hbuiltin, rfl⟩ := hrenamed
      have hlogical := hgoal builtin hbuiltin
      cases builtin with
      | write text => exact hlogical
      | assert added => exact hlogical
      | _ => exact trivial

theorem Query.Logical.rename {goals : Query} (hgoals : Query.Logical goals)
    (image : Var → Var) : Query.Logical (Query.rename image goals) := by
  intro goal hgoal
  obtain ⟨source, hsource, rfl⟩ := List.mem_map.mp hgoal
  exact (hgoals source hsource).rename image

theorem Clause.Logical.rename {clause : Clause} (hclause : clause.Logical) (image : Var → Var) :
    (clause.rename image).Logical := by
  cases clause with
  | fact head => exact trivial
  | rule head body => exact Query.Logical.rename hclause image

theorem logical_ofStatements {program : List Statement}
    (hprogram : ∀ clause, .clause clause ∈ program → clause.Logical) :
    (Theory.ofStatements program).All Clause.Logical :=
  Theory.all_ofStatements fun clause hclause _ => (hprogram clause hclause).rename _

theorem Builtin.Logical.events {builtin : Builtin} (hlogical : builtin.Logical)
    (env : Environment) (bindings : Bindings) : (builtin.prove env bindings).events = [] := by
  cases builtin with
  | write text => exact hlogical.elim
  | assert added => exact hlogical.elim
  | _ => rfl

/-- A goal of the engine without effects adds what makes it true. -/
theorem Builtin.Logical.extension {builtin : Builtin} (hlogical : builtin.Logical)
    {env : Environment} {bindings found : Bindings} (hacyclic : bindings.Acyclic)
    (hproved : (builtin.prove env bindings).result = some found) :
    Extension bindings found fun valuation => builtin.Holds valuation := by
  cases builtin with
  | unify left right => exact unify_extension hacyclic hproved
  | succeed =>
      rw [← Option.some.inj hproved]
      exact Extension.refl hacyclic fun _ _ => trivial
  | fail => cases hproved
  | write text => exact hlogical.elim
  | assert added => exact hlogical.elim

/-- What is carried back when a rule's body is proved: the substitution it was
proved on, the variables whose values are wanted, and the caller's substitution
with those values. -/
structure Handback where
  found : Bindings
  wanted : List Var
  after : Bindings

/-- One move of a branch, with what is carried back in it. -/
inductive Moves (env : Environment) (limit : Option Nat) :
    Branch → List Handback → Branch → Prop
  | done (bindings : Bindings) (depth : Nat) (rest : List Frame) :
      Moves env limit ⟨bindings, .goals [] depth :: rest⟩ [] ⟨bindings, rest⟩
  | builtin {bindings found : Bindings} {goal : Fact} {pending : Query} {depth : Nat}
      {rest : List Frame} {builtin : Builtin} (hbuiltin : Builtin.ofFact? goal = some builtin)
      (hproved : (builtin.prove env bindings).result = some found) :
      Moves env limit ⟨bindings, .goals (.fact goal :: pending) depth :: rest⟩ []
        ⟨found, pushGoals pending depth rest⟩
  | clause {bindings : Bindings} {goal : Fact} {pending : Query} {depth nextFresh : Nat}
      {rest : List Frame} {clause : Clause} {untried : List Clause} {next : Branch}
      (hgoal : Builtin.ofFact? goal = none)
      (hclause : clause ∈ env.theory.lookup goal.signature)
      (hattempt : (Choice.attempt ⟨goal, bindings, pushGoals pending depth rest, depth, untried⟩
        limit nextFresh clause).2 = some next) :
      Moves env limit ⟨bindings, .goals (.fact goal :: pending) depth :: rest⟩ [] next
  | project {found caller after : Bindings} {wanted : List Var} {rest : List Frame}
      (hafter : project found wanted caller = some after) :
      Moves env limit ⟨found, .project caller wanted :: rest⟩ [⟨found, wanted, after⟩]
        ⟨after, rest⟩

/-- The branches that a query comes to, each with all that was carried back on
the way to it. -/
inductive Derives (env : Environment) (limit : Option Nat) (goals : Query) :
    List Handback → Branch → Prop
  | start : Derives env limit goals [] ⟨.empty, [.goals goals 0]⟩
  | move {handbacks more : List Handback} {branch next : Branch}
      (hbranch : Derives env limit goals handbacks branch)
      (hmove : Moves env limit branch more next) :
      Derives env limit goals (handbacks ++ more) next

/-- A clause that is tried is a copy with other names.  A fact's is unified with
the goal, and a rule's with the goal as it stands, in a frame of its own. -/
theorem Choice.attempt_eq_some {choice : Choice} {limit : Option Nat} {nextFresh : Nat}
    {clause : Clause} {next : Branch}
    (hattempt : (choice.attempt limit nextFresh clause).2 = some next) :
    (∃ stored image found, clause = .fact stored ∧
      unifyFacts (stored.rename image) choice.goal choice.bindings = some found ∧
      next = ⟨found, choice.rest⟩) ∨
    ∃ head body image initial, clause = .rule head body ∧
      unifyFacts (head.rename image) (choice.bindings.groundFact choice.goal) .empty =
        some initial ∧
      next = ⟨initial, .goals (Query.rename image body) (choice.depth + 1) ::
        .project choice.bindings (choice.bindings.groundFact choice.goal).variables ::
        choice.rest⟩ := by
  cases clause with
  | fact stored =>
      left
      by_cases hground : stored.isGround = true
      · rw [attempt, if_pos hground] at hattempt
        simp only [Option.map_eq_some_iff] at hattempt
        obtain ⟨found, hfound, rfl⟩ := hattempt
        refine ⟨stored, id, found, rfl, ?_, rfl⟩
        rwa [Fact.rename_of_isGround hground]
      · rw [attempt, if_neg hground] at hattempt
        simp only [Option.map_eq_some_iff] at hattempt
        obtain ⟨found, hfound, rfl⟩ := hattempt
        exact ⟨stored, _, found, rfl, hfound, rfl⟩
  | rule head body =>
      right
      by_cases hlimit : belowLimit limit choice.depth = true
      · rw [attempt, if_pos hlimit] at hattempt
        simp only [Option.map_eq_some_iff] at hattempt
        obtain ⟨initial, hinitial, rfl⟩ := hattempt
        exact ⟨head, body, _, initial, rfl, hinitial, rfl⟩
      · simp [attempt, hlimit] at hattempt

/-- Goals are without effects, and callers' substitutions without cycles. -/
def Frame.Regular : Frame → Prop
  | .goals pending _ => Query.Logical pending
  | .statements _ => False
  | .project caller _ => caller.Acyclic

structure Branch.Regular (branch : Branch) : Prop where
  acyclic : branch.bindings.Acyclic
  frames : ∀ frame ∈ branch.frames, frame.Regular

theorem regular_pushGoals {pending : Query} {depth : Nat} {frames : List Frame}
    (hpending : Query.Logical pending) (hframes : ∀ frame ∈ frames, frame.Regular) :
    ∀ frame ∈ pushGoals pending depth frames, frame.Regular := by
  cases pending with
  | nil => exact hframes
  | cons goal pending => exact List.forall_mem_cons.mpr ⟨hpending, hframes⟩

section Preservation

variable {env : Environment} {limit : Option Nat} {goals : Query}

theorem Moves.regular (hstore : env.theory.All Clause.Logical) {branch next : Branch}
    {more : List Handback} (hmove : Moves env limit branch more next)
    (hbranch : branch.Regular) : next.Regular := by
  obtain ⟨hacyclic, hframes⟩ := hbranch
  cases hmove with
  | done bindings depth rest => exact ⟨hacyclic, (List.forall_mem_cons.mp hframes).2⟩
  | builtin hbuiltin hproved =>
      obtain ⟨hgoals, hrest⟩ := List.forall_mem_cons.mp hframes
      obtain ⟨hgoal, hpending⟩ := List.forall_mem_cons.mp hgoals
      have hextension := (hgoal _ hbuiltin).extension hacyclic hproved
      exact ⟨hextension.acyclic, regular_pushGoals hpending hrest⟩
  | @clause bindings goal pending depth nextFresh rest clause untried _ hgoal hclause hattempt =>
      obtain ⟨hgoals, hrest⟩ := List.forall_mem_cons.mp hframes
      have hpushed : ∀ frame ∈ pushGoals pending depth rest, frame.Regular :=
        regular_pushGoals (List.forall_mem_cons.mp hgoals).2 hrest
      rcases Choice.attempt_eq_some hattempt with
        ⟨stored, image, found, rfl, hfound, rfl⟩ | ⟨head, body, image, initial, rfl, hinitial, rfl⟩
      · exact ⟨(unify_extension hacyclic hfound).acyclic, hpushed⟩
      · have hbody : Query.Logical body := hstore _ _ hclause
        refine ⟨(unify_extension Bindings.acyclic_empty hinitial).acyclic, ?_⟩
        exact List.forall_mem_cons.mpr ⟨hbody.rename image,
          List.forall_mem_cons.mpr ⟨hacyclic, hpushed⟩⟩
  | project hafter =>
      obtain ⟨hcaller, hrest⟩ := List.forall_mem_cons.mp hframes
      exact ⟨(Bindings.Acyclic.project hcaller hafter).1, hrest⟩

theorem Derives.regular (hstore : env.theory.All Clause.Logical) (hgoals : Query.Logical goals)
    {handbacks : List Handback} {branch : Branch}
    (hderives : Derives env limit goals handbacks branch) : branch.Regular := by
  induction hderives with
  | start => exact ⟨Bindings.acyclic_empty, List.forall_mem_singleton.mpr hgoals⟩
  | move _ hmove ih => exact hmove.regular hstore ih

end Preservation

/-- Every clause that is left to try gives a move of a derived branch. -/
structure Choice.Traced (env : Environment) (limit : Option Nat) (goals : Query)
    (choice : Choice) : Prop where
  user : Builtin.ofFact? choice.goal = none
  stored : ∀ clause ∈ choice.untried, clause ∈ env.theory.lookup choice.goal.signature
  derived : ∃ handbacks pending frames,
    Derives env limit goals handbacks
      ⟨choice.bindings, .goals (.fact choice.goal :: pending) choice.depth :: frames⟩ ∧
    choice.rest = pushGoals pending choice.depth frames

structure Machine.Traced (env : Environment) (limit : Option Nat) (goals : Query)
    (machine : Machine) : Prop where
  current : ∀ branch, machine.current = some branch →
    ∃ handbacks, Derives env limit goals handbacks branch
  choices : ∀ choice ∈ machine.choices, choice.Traced env limit goals

section Tracing

variable {env : Environment} {limit : Option Nat} {goals : Query}

theorem traced_ofQuery (env : Environment) (limit : Option Nat) (goals : Query) :
    (Machine.ofQuery goals .empty).Traced env limit goals := by
  refine ⟨fun branch hbranch => ?_, by simp [Machine.ofQuery, Machine.ofBranch]⟩
  rw [← Option.some.inj hbranch]
  exact ⟨[], .start⟩

/-- A branch that has moved on, or that has come to nothing. -/
theorem traced_of_moves {handbacks : List Handback} {branch : Branch} {frames : List Frame}
    {choices : List Choice} {result : Option Bindings}
    (hderives : Derives env limit goals handbacks branch)
    (hchoices : ∀ choice ∈ choices, choice.Traced env limit goals)
    (hmoves : ∀ found, result = some found → ∃ more, Moves env limit branch more ⟨found, frames⟩) :
    Machine.Traced env limit goals ⟨result.map (⟨·, frames⟩), choices⟩ := by
  refine ⟨fun next hnext => ?_, hchoices⟩
  obtain ⟨found, hfound, rfl⟩ := Option.map_eq_some_iff.mp hnext
  obtain ⟨more, hmove⟩ := hmoves found hfound
  exact ⟨handbacks ++ more, hderives.move hmove⟩

/-- Where a step leaves a search, as far as its branches go. -/
def Outcome.Traced (env : Environment) (limit : Option Nat) (goals : Query) : Outcome → Prop
  | .running machine => machine.Traced env limit goals
  | .answer found machine => machine.Traced env limit goals ∧
      ∃ handbacks, Derives env limit goals handbacks ⟨found, []⟩
  | .exhausted => True

theorem traced_advance (hstore : env.theory.All Clause.Logical) (hgoals : Query.Logical goals)
    (nextFresh : Nat) {handbacks : List Handback} {bindings : Bindings} {frames : List Frame}
    {choices : List Choice} (hderives : Derives env limit goals handbacks ⟨bindings, frames⟩)
    (hchoices : ∀ choice ∈ choices, choice.Traced env limit goals) :
    (Machine.advance env nextFresh choices bindings frames).events = [] ∧
      (Machine.advance env nextFresh choices bindings frames).outcome.Traced env limit goals := by
  have hframes := (hderives.regular hstore hgoals).frames
  cases frames with
  | nil => exact ⟨rfl, ⟨by simp, hchoices⟩, handbacks, hderives⟩
  | cons frame rest =>
      obtain ⟨hframe, _⟩ := List.forall_mem_cons.mp hframes
      cases frame with
      | statements pending => exact hframe.elim
      | project caller wanted =>
          exact ⟨rfl, traced_of_moves hderives hchoices fun after hafter =>
            ⟨_, .project hafter⟩⟩
      | goals pending depth =>
          cases pending with
          | nil =>
              have hdone : ∀ found, some bindings = some found → ∃ more,
                  Moves env limit ⟨bindings, .goals [] depth :: rest⟩ more ⟨found, rest⟩ :=
                fun found hfound => ⟨[], Option.some.inj hfound ▸ .done bindings depth rest⟩
              exact ⟨rfl, traced_of_moves hderives hchoices hdone⟩
          | cons goal pending =>
              obtain ⟨hgoal, _⟩ := List.forall_mem_cons.mp hframe
              cases goal with
              | assign target value => exact hgoal.elim
              | fact goal =>
                  rw [Machine.advance, Machine.select]
                  cases hbuiltin : Builtin.ofFact? goal with
                  | some builtin =>
                      refine ⟨(hgoal builtin hbuiltin).events env bindings, ?_⟩
                      exact traced_of_moves hderives hchoices fun found hfound =>
                        ⟨[], .builtin hbuiltin hfound⟩
                  | none =>
                      refine ⟨rfl, by simp, List.forall_mem_cons.mpr ⟨?_, hchoices⟩⟩
                      exact ⟨hbuiltin, fun clause hclause => hclause,
                        handbacks, pending, rest, hderives, rfl⟩

theorem traced_retry (nextFresh : Nat) {choices : List Choice}
    (hchoices : ∀ choice ∈ choices, choice.Traced env limit goals) :
    (Machine.retry limit nextFresh choices).events = [] ∧
      (Machine.retry limit nextFresh choices).outcome.Traced env limit goals := by
  cases choices with
  | nil => exact ⟨rfl, trivial⟩
  | cons choice choices =>
      obtain ⟨hchoice, holder⟩ := List.forall_mem_cons.mp hchoices
      obtain ⟨goal, bindings, rest, depth, untried⟩ := choice
      cases untried with
      | nil => exact ⟨rfl, by simp, holder⟩
      | cons clause untried =>
          obtain ⟨huser, hstored, handbacks, pending, frames, hderives, hrest⟩ := hchoice
          obtain ⟨hclause, hstored⟩ := List.forall_mem_cons.mp hstored
          simp only at hrest
          subst hrest
          refine ⟨rfl, fun next hnext => ?_, List.forall_mem_cons.mpr ⟨?_, holder⟩⟩
          · exact ⟨handbacks ++ [], hderives.move (.clause huser hclause hnext)⟩
          · exact ⟨huser, hstored, handbacks, pending, frames, hderives, rfl⟩

theorem Machine.Traced.step (hstore : env.theory.All Clause.Logical)
    (hgoals : Query.Logical goals) {machine : Machine}
    (htraced : machine.Traced env limit goals) (nextFresh : Nat) :
    (machine.step env limit nextFresh).events = [] ∧
      (machine.step env limit nextFresh).outcome.Traced env limit goals := by
  obtain ⟨current, choices⟩ := machine
  cases current with
  | none => exact traced_retry nextFresh htraced.choices
  | some branch =>
      obtain ⟨handbacks, hderives⟩ := htraced.current branch rfl
      exact traced_advance hstore hgoals nextFresh hderives htraced.choices

end Tracing

/-- Whether a pull gives an answer that passes a check. -/
def Pull.answers (check : Bindings → Bool) : Pull → Bool
  | .answer found => check found
  | .exhausted => false
  | .unfinished => false

namespace Search

/-- Some pull of a search, one after another, gives this answer. -/
inductive Yields (limit : Option Nat) : Search → Bindings → Prop
  | first {search next : Search} {found : Bindings} (fuel : Nat)
      (hpull : search.pullUpTo limit fuel = (next, .answer found)) : Yields limit search found
  | later {search next : Search} {earlier found : Bindings} (fuel : Nat)
      (hpull : search.pullUpTo limit fuel = (next, .answer earlier))
      (hfound : Yields limit next found) : Yields limit search found

theorem exists_yields {limit : Option Nat} {search : Search} {check : Bindings → Bool} (fuel : Nat)
    (hpull : (search.pullUpTo limit fuel).2.answers check = true) :
    ∃ found, search.Yields limit found ∧ check found = true := by
  cases hresult : search.pullUpTo limit fuel with
  | mk next pull =>
      rw [hresult] at hpull
      cases pull with
      | answer found => exact ⟨found, .first fuel hresult, hpull⟩
      | exhausted => cases hpull
      | unfinished => cases hpull

variable {env : Environment} {limit : Option Nat} {goals : Query}

theorem traced_pullUpTo (hstore : env.theory.All Clause.Logical) (hgoals : Query.Logical goals)
    {fuel : Nat} {search next : Search} {found : Bindings} (henv : search.env = env)
    (htraced : search.machine.Traced env limit goals)
    (hpull : search.pullUpTo limit fuel = (next, .answer found)) :
    (∃ handbacks, Derives env limit goals handbacks ⟨found, []⟩) ∧ next.env = env ∧
      next.machine.Traced env limit goals := by
  induction fuel generalizing search with
  | zero => cases hpull
  | succ fuel ih =>
      obtain ⟨hevents, houtcome⟩ := htraced.step hstore hgoals search.nextFresh
      have hafter : ∀ machine, (search.after
          (search.machine.step env limit search.nextFresh) machine).env = env := by
        intro machine
        rw [Search.after, hevents, henv]
        rfl
      rw [pullUpTo, henv] at hpull
      cases hstep : (search.machine.step env limit search.nextFresh).outcome with
      | running machine =>
          simp only [hstep] at hpull houtcome
          exact ih (hafter machine) houtcome hpull
      | answer earlier machine =>
          simp only [hstep, Prod.mk.injEq, Pull.answer.injEq] at hpull houtcome
          obtain ⟨rfl, rfl⟩ := hpull
          exact ⟨houtcome.2, hafter machine, houtcome.1⟩
      | exhausted =>
          simp only [hstep, Prod.mk.injEq] at hpull
          cases hpull.2

/-- The answers of a search are where derived branches end. -/
theorem Yields.derived (hstore : env.theory.All Clause.Logical) (hgoals : Query.Logical goals)
    {search : Search} {found : Bindings} (henv : search.env = env)
    (htraced : search.machine.Traced env limit goals) (hyields : search.Yields limit found) :
    ∃ handbacks, Derives env limit goals handbacks ⟨found, []⟩ := by
  induction hyields with
  | first fuel hpull => exact (traced_pullUpTo hstore hgoals henv htraced hpull).1
  | later fuel hpull _ ih =>
      obtain ⟨_, hnextEnv, hnext⟩ := traced_pullUpTo hstore hgoals henv htraced hpull
      exact ih hnextEnv hnext

end Search

end Horn
