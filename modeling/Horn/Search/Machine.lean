/-
Depth-first search as a machine.  What is left to prove on a branch is a list
of frames, and what is left to try is a stack of choices, so that no step
depends on how deep a proof has become.
-/
import Horn.Arithmetic
import Horn.Search.Builtin

namespace Horn

/-- A part of what is left to prove. -/
inductive Frame
  /-- Goals to prove in order; rules met here are expanded at `depth`. -/
  | goals (pending : Query) (depth : Nat)
  /-- Statements to resolve as queries in order. -/
  | statements (pending : List Statement)
  /-- A rule's body is proved up to here: carry the values of `wanted` back to
  the caller. -/
  | project (caller : Bindings) (wanted : List Var)

structure Branch where
  bindings : Bindings
  frames : List Frame

/-- Clauses still to be tried for a goal, with all that a proof by one of them
needs. -/
structure Choice where
  goal : Fact
  bindings : Bindings
  rest : List Frame
  depth : Nat
  untried : List Clause

/-- The branch at hand, if there is one, and the choices to come back to, the
latest first. -/
structure Machine where
  current : Option Branch
  choices : List Choice

namespace Machine

def ofBranch (branch : Branch) : Machine :=
  ⟨some branch, []⟩

def ofQuery (goals : Query) (bindings : Bindings) : Machine :=
  ofBranch ⟨bindings, [.goals goals 0]⟩

/-- Resolve statements one after another, each under the solutions of those
before it. -/
def ofStatements (statements : List Statement) (bindings : Bindings) : Machine :=
  ofBranch ⟨bindings, [.statements statements]⟩

end Machine

def assignValue (bindings : Bindings) (target : Var) (value : Expr) : Option Bindings :=
  match bindings.dereference (.var target) with
  | .var _ =>
      match value.evaluate bindings with
      | .ok number => bindings.bind? target (.num number)
      | .error _ => none
  | _ => none

/-- Bind each wanted variable that has a value in `discovered` in the caller's
substitution.  A value that the caller's own contradicts gives nothing. -/
def project (discovered : Bindings) : List Var → Bindings → Option Bindings
  | [], caller => some caller
  | name :: rest, caller =>
      let value := discovered.value name
      if value.isVar then project discovered rest caller
      else match caller.bind? name value with
        | some extended => project discovered rest extended
        | none => none

def freshStem : String := "_sf"

def belowLimit (limit : Option Nat) (depth : Nat) : Bool :=
  match limit with
  | some most => depth < most
  | none => true

/-- Try one clause for a goal, with the next number for a fresh name before and
after.  A rule starts a proof of its own body, for the goal as it stands; a
fact is unified under the goal's own substitution. -/
def Choice.attempt (choice : Choice) (limit : Option Nat) (nextFresh : Nat) :
    Clause → Nat × Option Branch
  | .fact stored =>
      if stored.isGround then
        (nextFresh, (unifyFacts stored choice.goal choice.bindings).map (⟨·, choice.rest⟩))
      else
        let renamed := (Clause.fact stored).renameApart freshStem nextFresh
        (nextFresh + renamed.2.used,
          (unifyFacts renamed.1.head choice.goal choice.bindings).map (⟨·, choice.rest⟩))
  | .rule head body =>
      if belowLimit limit choice.depth then
        let names := ((Clause.rule head body).renameApart freshStem nextFresh).2
        let grounded := choice.bindings.groundFact choice.goal
        (nextFresh + names.used,
          (unifyFacts (head.rename names.image) grounded .empty).map fun initial =>
            ⟨initial, .goals (Query.rename names.image body) (choice.depth + 1) ::
              .project choice.bindings grounded.variables :: choice.rest⟩)
      else (nextFresh, none)

/-- The frames for goals that are left, and none if there are none. -/
def pushGoals (pending : Query) (depth : Nat) (frames : List Frame) : List Frame :=
  match pending with
  | [] => frames
  | _ :: _ => .goals pending depth :: frames

inductive Outcome
  | running (machine : Machine)
  | answer (bindings : Bindings) (machine : Machine)
  | exhausted

/-- A step's events in their order, the next number for a fresh name, and where
the search stands. -/
structure Step where
  events : List Event
  nextFresh : Nat
  outcome : Outcome

namespace Machine

/-- Take up a goal: the engine's own goals are proved at once, and others leave
a choice among the clauses that are stored now. -/
def select (env : Environment) (choices : List Choice) (bindings : Bindings) (rest : List Frame)
    (depth : Nat) : Goal → List Event × Machine
  | .assign target value =>
      ([], ⟨(assignValue bindings target value).map (⟨·, rest⟩), choices⟩)
  | .fact goal =>
      match Builtin.ofFact? goal with
      | some builtin =>
          let verdict := builtin.prove env bindings
          (verdict.events, ⟨verdict.result.map (⟨·, rest⟩), choices⟩)
      | none =>
          ([], ⟨none, ⟨goal, bindings, rest, depth, env.theory.lookup goal.signature⟩ :: choices⟩)

/-- Take up the next frame of a branch. -/
def advance (env : Environment) (nextFresh : Nat) (choices : List Choice) (bindings : Bindings) :
    List Frame → Step
  | [] => ⟨[], nextFresh, .answer bindings ⟨none, choices⟩⟩
  | .goals [] _ :: rest => ⟨[], nextFresh, .running ⟨some ⟨bindings, rest⟩, choices⟩⟩
  | .goals (goal :: pending) depth :: rest =>
      let selected := select env choices bindings (pushGoals pending depth rest) depth goal
      ⟨selected.1, nextFresh, .running selected.2⟩
  | .statements [] :: rest => ⟨[], nextFresh, .running ⟨some ⟨bindings, rest⟩, choices⟩⟩
  | .statements (.query goals :: pending) :: rest =>
      ⟨[], nextFresh,
        .running ⟨some ⟨bindings, .goals goals 0 :: .statements pending :: rest⟩, choices⟩⟩
  | .statements (.clause _ :: _) :: _ => ⟨[], nextFresh, .running ⟨none, choices⟩⟩
  | .project caller wanted :: rest =>
      ⟨[], nextFresh, .running ⟨(project bindings wanted caller).map (⟨·, rest⟩), choices⟩⟩

def retry (limit : Option Nat) (nextFresh : Nat) : List Choice → Step
  | [] => ⟨[], nextFresh, .exhausted⟩
  | choice :: choices =>
      match choice.untried with
      | [] => ⟨[], nextFresh, .running ⟨none, choices⟩⟩
      | clause :: untried =>
          let attempted := choice.attempt limit nextFresh clause
          ⟨[], attempted.1, .running ⟨attempted.2, { choice with untried } :: choices⟩⟩

def step (env : Environment) (limit : Option Nat) (nextFresh : Nat) (machine : Machine) : Step :=
  match machine.current with
  | some branch => advance env nextFresh machine.choices branch.bindings branch.frames
  | none => retry limit nextFresh machine.choices

end Machine

/-- A search with what it shares and its supply of fresh names, and the first
error reported while it is advanced. -/
structure Search where
  env : Environment
  nextFresh : Nat
  machine : Machine
  failure : Option ResolveError

inductive Pull
  | answer (bindings : Bindings)
  | exhausted
  | unfinished

def firstReport? : List Event → Option ResolveError
  | [] => none
  | .reported error :: _ => some error
  | .wrote _ :: rest => firstReport? rest
  | .stored _ :: rest => firstReport? rest

/-- The search after a step that leaves the given machine. -/
def Search.after (search : Search) (step : Step) (machine : Machine) : Search :=
  { env := search.env.recordAll step.events
    nextFresh := step.nextFresh
    machine
    failure := search.failure.or (firstReport? step.events) }

/-- Advance a search by at most `fuel` steps, up to its next answer or its end. -/
def Search.pullUpTo (limit : Option Nat) : Nat → Search → Search × Pull
  | 0, search => (search, .unfinished)
  | fuel + 1, search =>
      let step := search.machine.step search.env limit search.nextFresh
      match step.outcome with
      | .running machine => Search.pullUpTo limit fuel (search.after step machine)
      | .answer bindings machine => (search.after step machine, .answer bindings)
      | .exhausted => (search.after step ⟨none, []⟩, .exhausted)

end Horn
