/-
The search by plain recursion.  The machine keeps frames and choices; here a
goal is proved by a function that hands each of its results to what comes
next, and tries the next alternative when that is over.  Both show the same.
-/
import Horn.Proofs.Observation

namespace Horn

/-- A computation that shows some observations and changes the world. -/
abbrev Run := World → List Observation × World

namespace Run

/-- Show nothing. -/
def stop : Run := fun world => ([], world)

/-- Show an answer. -/
def answer (found : Bindings) : Run := fun world => ([.answer found], world)

/-- One run after the other. -/
def andThen (first second : Run) : Run := fun world =>
  let before := first world
  let after := second before.2
  (before.1 ++ after.1, after.2)

/-- A run after some events. -/
def after (events : List Event) (next : Run) : Run := fun world =>
  let shown := next (world.record events)
  (events.map .event ++ shown.1, shown.2)

/-- Go on with a result, if there is one. -/
def followedBy (next : Bindings → Run) : Option Bindings → Run
  | none => stop
  | some found => next found

end Run

/-- Prove some goals under a substitution and go on with each result. -/
abbrev Solver := Query → Bindings → (Bindings → Run) → Run

/-- Try one clause for a goal.  A rule's body is proved by `expand`, on a
substitution of its own, and what it finds is carried back. -/
def tryClause (expand : Option Solver) (goal : Fact) (bindings : Bindings)
    (next : Bindings → Run) : Clause → Run
  | .fact stored =>
      if stored.isGround then Run.followedBy next (unifyFacts stored goal bindings)
      else fun world =>
        let renamed := (Clause.fact stored).renameApart freshStem world.nextFresh
        Run.followedBy next (unifyFacts renamed.1.head goal bindings)
          (world.spend renamed.2.used)
  | .rule head body =>
      match expand with
      | none => Run.stop
      | some solveBody => fun world =>
          let names := ((Clause.rule head body).renameApart freshStem world.nextFresh).2
          let grounded := bindings.groundFact goal
          let expanded := fun initial => solveBody (Query.rename names.image body) initial
            fun found => Run.followedBy next (project found grounded.variables bindings)
          Run.followedBy expanded (unifyFacts (head.rename names.image) grounded .empty)
            (world.spend names.used)

/-- Try clauses one after another. -/
def tryAll (expand : Option Solver) (goal : Fact) (bindings : Bindings)
    (next : Bindings → Run) : List Clause → Run
  | [] => Run.stop
  | clause :: untried =>
      (tryClause expand goal bindings next clause).andThen
        (tryAll expand goal bindings next untried)

/-- Prove one goal: by arithmetic, by the engine itself, or by the clauses that
are stored now. -/
def solveGoal (expand : Option Solver) (bindings : Bindings) (next : Bindings → Run) :
    Goal → Run
  | .assign target value => Run.followedBy next (assignValue bindings target value)
  | .fact goal => fun world =>
      match Builtin.ofFact? goal with
      | some builtin =>
          let verdict := builtin.prove world.env bindings
          Run.after verdict.events (Run.followedBy next verdict.result) world
      | none =>
          tryAll expand goal bindings next (world.env.theory.lookup goal.signature) world

/-- Prove goals from left to right, each under what the ones before it have
found. -/
def solveWith (expand : Option Solver) : Solver
  | [], bindings, next => next bindings
  | goal :: pending, bindings, next =>
      solveGoal expand bindings (fun found => solveWith expand pending found next) goal

/-- Prove goals with this many levels of rules below them. -/
def solve : Nat → Solver
  | 0 => solveWith none
  | levels + 1 => solveWith (some (solve levels))

namespace Search

/-- Proving what is left on a branch shows what a run shows, and comes back to
the choices there were. -/
def Realises (limit : Option Nat) (frames : List Frame) (next : Bindings → Run) : Prop :=
  ∀ (bindings : Bindings) (choices : List Choice) (world : World),
    Shows limit (world.search ⟨some ⟨bindings, frames⟩, choices⟩) (next bindings world).1
      ((next bindings world).2.search ⟨none, choices⟩)

theorem Shows.of_step {limit : Option Nat} {world : World} {machine further : Machine}
    {events : List Event} (names : Nat) {rest : List Observation} {final : Search}
    (hstep : machine.step world.env limit world.nextFresh =
      ⟨events, world.nextFresh + names, .running further⟩)
    (hrest : Shows limit (((world.record events).spend names).search further) rest final) :
    Shows limit (world.search machine) (events.map .event ++ rest) final := by
  have hafter : (world.search machine).after (machine.step world.env limit world.nextFresh)
      further = ((world.record events).spend names).search further := by
    rw [hstep]
    rfl
  have hshows : Shows limit (world.search machine)
      ((machine.step world.env limit world.nextFresh).events.map .event ++ rest) final := by
    refine .running (congrArg Step.outcome hstep) ?_
    exact hafter ▸ hrest
  rw [hstep] at hshows
  exact hshows

/-- A step that hands out names, and shows nothing. -/
theorem Shows.of_names {limit : Option Nat} {world : World} {machine further : Machine}
    (names : Nat) {rest : List Observation} {final : Search}
    (hstep : machine.step world.env limit world.nextFresh =
      ⟨[], world.nextFresh + names, .running further⟩)
    (hrest : Shows limit ((world.spend names).search further) rest final) :
    Shows limit (world.search machine) rest final := by
  refine Shows.of_step names hstep ?_
  rw [World.record_nil]
  exact hrest

/-- A step that only leads on. -/
theorem Shows.of_silent {limit : Option Nat} {world : World} {machine further : Machine}
    {rest : List Observation} {final : Search}
    (hstep : machine.step world.env limit world.nextFresh =
      ⟨[], world.nextFresh, .running further⟩)
    (hrest : Shows limit (world.search further) rest final) :
    Shows limit (world.search machine) rest final :=
  Shows.of_names 0 hstep hrest

theorem realises_nil (limit : Option Nat) : Realises limit [] Run.answer := by
  intro bindings choices world
  have hafter : (world.search ⟨some ⟨bindings, []⟩, choices⟩).after
      (Machine.step world.env limit world.nextFresh ⟨some ⟨bindings, []⟩, choices⟩)
      ⟨none, choices⟩ = world.search ⟨none, choices⟩ :=
    congrArg (fun same => World.search same ⟨none, choices⟩) world.record_nil
  exact .answer rfl (hafter ▸ Shows.refl _)

/-- A result that is missing leaves nothing to prove on a branch. -/
theorem Realises.followedBy {limit : Option Nat} {frames : List Frame} {next : Bindings → Run}
    (hframes : Realises limit frames next) (result : Option Bindings) (choices : List Choice)
    (world : World) :
    Shows limit (world.search ⟨result.map (⟨·, frames⟩), choices⟩)
      (Run.followedBy next result world).1
      ((Run.followedBy next result world).2.search ⟨none, choices⟩) := by
  cases result with
  | none => exact Shows.refl _
  | some found => exact hframes found choices world

theorem Realises.project {limit : Option Nat} {frames : List Frame} {next : Bindings → Run}
    (hframes : Realises limit frames next) (caller : Bindings) (wanted : List Var) :
    Realises limit (.project caller wanted :: frames) fun found =>
      Run.followedBy next (project found wanted caller) := by
  intro bindings choices world
  exact Shows.of_silent rfl (hframes.followedBy (Horn.project bindings wanted caller) choices world)

/-- A solver does what goals at some depth do on a branch. -/
def Follows (limit : Option Nat) (depth : Nat) (solver : Solver) : Prop :=
  ∀ (frames : List Frame) (next : Bindings → Run), Realises limit frames next →
    ∀ goals : Query, Realises limit (.goals goals depth :: frames)
      fun bindings => solver goals bindings next

/-- How rule bodies are proved fits a depth: not at all at the limit, and one
level deeper below it. -/
def Expands (limit : Option Nat) (depth : Nat) : Option Solver → Prop
  | none => belowLimit limit depth = false
  | some solveBody => belowLimit limit depth = true ∧ Follows limit (depth + 1) solveBody

variable {limit : Option Nat} {depth : Nat} {expand : Option Solver} {frames : List Frame}
  {next : Bindings → Run}

theorem Realises.tryClause (hexpand : Expands limit depth expand)
    (hframes : Realises limit frames next) (goal : Fact) (bindings : Bindings) (clause : Clause)
    (untried : List Clause) (choices : List Choice) (world : World) :
    Shows limit
      (world.search ⟨none, ⟨goal, bindings, frames, depth, clause :: untried⟩ :: choices⟩)
      (tryClause expand goal bindings next clause world).1
      ((tryClause expand goal bindings next clause world).2.search
        ⟨none, ⟨goal, bindings, frames, depth, untried⟩ :: choices⟩) := by
  cases clause with
  | fact stored =>
      by_cases hground : stored.isGround = true
      · simp only [Horn.tryClause, hground, if_true]
        refine Shows.of_silent ?_ (hframes.followedBy (unifyFacts stored goal bindings) _ world)
        simp [Machine.step, Machine.retry, Choice.attempt, hground]
      · simp only [Horn.tryClause, hground]
        refine Shows.of_names _ ?_ (hframes.followedBy _ _ _)
        simp [Machine.step, Machine.retry, Choice.attempt, hground]
  | rule head body =>
      cases expand with
      | none =>
          have hlimit : belowLimit limit depth = false := hexpand
          refine Shows.of_silent ?_ (Shows.refl _)
          simp [Machine.step, Machine.retry, Choice.attempt, hlimit]
      | some solveBody =>
          obtain ⟨hlimit, hbody⟩ := hexpand
          have hprojected := hframes.project bindings (bindings.groundFact goal).variables
          refine Shows.of_names _ ?_ ((hbody _ _ hprojected _).followedBy _ _ _)
          simp [Machine.step, Machine.retry, Choice.attempt, hlimit]

theorem Realises.tryAll (hexpand : Expands limit depth expand)
    (hframes : Realises limit frames next) (goal : Fact) (bindings : Bindings)
    (untried : List Clause) (choices : List Choice) (world : World) :
    Shows limit (world.search ⟨none, ⟨goal, bindings, frames, depth, untried⟩ :: choices⟩)
      (tryAll expand goal bindings next untried world).1
      ((tryAll expand goal bindings next untried world).2.search ⟨none, choices⟩) := by
  induction untried generalizing world with
  | nil => exact Shows.of_silent rfl (Shows.refl _)
  | cons clause untried ih =>
      exact (hframes.tryClause hexpand goal bindings clause untried choices world).trans (ih _)

theorem Realises.solveGoal {pending : Query} (hexpand : Expands limit depth expand)
    (hframes : Realises limit (pushGoals pending depth frames) next) (goal : Goal) :
    Realises limit (.goals (goal :: pending) depth :: frames)
      fun bindings => solveGoal expand bindings next goal := by
  intro bindings choices world
  cases goal with
  | assign target value =>
      exact Shows.of_silent rfl (hframes.followedBy (assignValue bindings target value) _ world)
  | fact goal =>
      simp only [Horn.solveGoal]
      cases hbuiltin : Builtin.ofFact? goal with
      | some builtin =>
          refine Shows.of_step 0 ?_
            (hframes.followedBy (builtin.prove world.env bindings).result choices
              (world.record (builtin.prove world.env bindings).events))
          simp [Machine.step, Machine.advance, Machine.select, hbuiltin]
      | none =>
          refine Shows.of_silent ?_ (hframes.tryAll hexpand goal bindings _ choices world)
          simp [Machine.step, Machine.advance, Machine.select, hbuiltin]

theorem Realises.pushGoals {pending : Query} (hframes : Realises limit frames next)
    (hpending : Realises limit (.goals pending depth :: frames)
      fun bindings => solveWith expand pending bindings next) :
    Realises limit (pushGoals pending depth frames)
      fun bindings => solveWith expand pending bindings next := by
  cases pending with
  | nil => exact hframes
  | cons goal pending => exact hpending

/-- The induction is on the goals that are left. -/
theorem follows_solveWith (hexpand : Expands limit depth expand) :
    Follows limit depth (solveWith expand) := by
  intro frames next hframes goals
  induction goals with
  | nil =>
      intro bindings choices world
      exact Shows.of_silent rfl (hframes bindings choices world)
  | cons goal pending ih =>
      exact (hframes.pushGoals ih).solveGoal hexpand goal

/-- At a depth below the limit there are as many levels of rules as are missing
to the limit. -/
theorem follows_solve {most levels depth : Nat} (hlevels : depth + levels = most) :
    Follows (some most) depth (solve levels) := by
  induction levels generalizing depth with
  | zero =>
      have hlimit : Expands (some most) depth none := by
        simp only [Expands, belowLimit, decide_eq_false_iff_not]
        omega
      exact follows_solveWith hlimit
  | succ levels ih =>
      have hlimit : belowLimit (some most) depth = true := by
        simp only [belowLimit, decide_eq_true_eq]
        omega
      have hexpand : Expands (some most) depth (some (solve levels)) :=
        ⟨hlimit, ih (by omega)⟩
      exact follows_solveWith hexpand

end Search

/-- What is seen when a query is searched under a depth limit. -/
def runQuery (most : Nat) (goals : Query) (bindings : Bindings) : Run :=
  solve most goals bindings Run.answer

theorem drains_runQuery (most : Nat) (goals : Query) (bindings : Bindings) (world : World) :
    Search.Drains (some most) (world.search (.ofQuery goals bindings))
      (runQuery most goals bindings world).1
      ((runQuery most goals bindings world).2.search ⟨none, []⟩) :=
  (Search.follows_solve (Nat.zero_add most) _ _ (Search.realises_nil _) goals bindings []
    world).drains

/-- Pulling a search of a query until it has no more answers shows the answers,
the output, the stored clauses and the errors that the recursion shows, in the
same order, and leaves the same environment and the same next fresh name; and
there is nothing else that it can show. -/
theorem pulling_is_depth_first (most : Nat) (env : Environment) (nextFresh : Nat)
    (goals : Query) (bindings : Bindings) (observations : List Observation) (final : Search) :
    Search.Drains (some most) ⟨env, nextFresh, .ofQuery goals bindings, none⟩ observations
        final ↔
      observations = (runQuery most goals bindings ⟨env, nextFresh, none⟩).1 ∧
        final = (runQuery most goals bindings ⟨env, nextFresh, none⟩).2.search ⟨none, []⟩ := by
  have hdrains := drains_runQuery most goals bindings ⟨env, nextFresh, none⟩
  constructor
  · intro hother
    exact hother.unique hdrains
  · rintro ⟨rfl, rfl⟩
    exact hdrains

end Horn
