/-
Why a search under a depth limit ends.  A goal is replaced by any number of
goals one level deeper, and by as many alternatives as there are clauses when
it is selected; so no count of goals goes down, and the argument follows the
frames that are left, the levels below the limit and the clauses to be tried.
What is stored meanwhile does not matter to it.
-/
import Horn.Proofs.Answers
import Horn.Proofs.Names

namespace Horn

namespace Machine

/-- A machine comes to its end, even if every step meets another environment and
another supply of names. -/
inductive Ends (limit : Option Nat) : Machine → Prop
  | exhausted : Ends limit ⟨none, []⟩
  | step {machine : Machine} (hnext : ∀ env nextFresh,
      Ends limit (machine.step env limit nextFresh).outcome.machine) : Ends limit machine

/-- Proving these frames on a branch comes to an end, if going on with the other
choices does. -/
def Finishes (limit : Option Nat) (frames : List Frame) : Prop :=
  ∀ (bindings : Bindings) (choices : List Choice), Ends limit ⟨none, choices⟩ →
    Ends limit ⟨some ⟨bindings, frames⟩, choices⟩

section Frames

variable {limit : Option Nat} {depth : Nat} {rest : List Frame}

/-- An answer leaves the other choices. -/
theorem finishes_nil (limit : Option Nat) : Finishes limit [] :=
  fun _ _ hchoices => .step fun _ _ => hchoices

/-- A result that is missing leaves the other choices. -/
theorem Finishes.of_result (hrest : Finishes limit rest) (result : Option Bindings)
    {choices : List Choice} (hchoices : Ends limit ⟨none, choices⟩) :
    Ends limit ⟨result.map (⟨·, rest⟩), choices⟩ := by
  cases result with
  | none => exact hchoices
  | some found => exact hrest found choices hchoices

theorem Finishes.project (hrest : Finishes limit rest) (caller : Bindings) (wanted : List Var) :
    Finishes limit (.project caller wanted :: rest) :=
  fun bindings _ hchoices => .step fun _ _ =>
    hrest.of_result (Horn.project bindings wanted caller) hchoices

/-- A rule may be expanded here only if its body comes to an end one level deeper. -/
def Expandable (limit : Option Nat) (depth : Nat) : Prop :=
  belowLimit limit depth = true → ∀ (body : Query) (rest : List Frame),
    Finishes limit rest → Finishes limit (.goals body (depth + 1) :: rest)

/-- The clauses that were stored when a goal was selected are tried one by one.
The induction is on those that are left, and each goes on with the choice among
the rest. -/
theorem Finishes.choice (hrest : Finishes limit rest) (hdeeper : Expandable limit depth)
    (goal : Fact) (bindings : Bindings) (untried : List Clause) {choices : List Choice}
    (hchoices : Ends limit ⟨none, choices⟩) :
    Ends limit ⟨none, ⟨goal, bindings, rest, depth, untried⟩ :: choices⟩ := by
  induction untried with
  | nil => exact .step fun _ _ => hchoices
  | cons clause untried ih =>
      apply Ends.step
      intro env nextFresh
      cases clause with
      | fact stored =>
          simp only [Machine.step, retry, Choice.attempt_fact, Outcome.machine]
          exact hrest.of_result _ ih
      | rule head body =>
          cases hlimit : belowLimit limit depth with
          | false =>
              simp only [Machine.step, retry, Choice.attempt, hlimit, Outcome.machine]
              exact ih
          | true =>
              simp only [Machine.step, retry, Choice.attempt, hlimit, Outcome.machine, if_true]
              cases unifyFacts _ _ _ with
              | none => exact ih
              | some initial => exact hdeeper hlimit _ _ (hrest.project _ _) initial _ ih

/-- The induction is on the goals that are left. -/
theorem Finishes.goals (hrest : Finishes limit rest) (hdeeper : Expandable limit depth)
    (goals : Query) : Finishes limit (.goals goals depth :: rest) := by
  induction goals with
  | nil => exact fun bindings _ hchoices => .step fun _ _ => hrest bindings _ hchoices
  | cons goal pending ih =>
      have hlater : Finishes limit (pushGoals pending depth rest) := by
        cases pending with
        | nil => exact hrest
        | cons next pending => exact ih
      intro bindings choices hchoices
      apply Ends.step
      intro env nextFresh
      cases goal with
      | assign target value => exact hlater.of_result (assignValue bindings target value) hchoices
      | fact goal =>
          cases hbuiltin : Builtin.ofFact? goal with
          | some builtin =>
              simp only [Machine.step, advance, select, hbuiltin, Outcome.machine]
              exact hlater.of_result (builtin.prove env bindings).result hchoices
          | none =>
              simp only [Machine.step, advance, select, hbuiltin, Outcome.machine]
              exact hlater.choice hdeeper goal bindings _ hchoices

end Frames

section Limit

variable {most : Nat}

/-- The induction is on the levels that are missing to the limit. -/
theorem expandable (most depth : Nat) : Expandable (some most) depth := by
  induction hlevels : most - depth generalizing depth with
  | zero =>
      intro hlimit
      simp only [belowLimit, decide_eq_true_eq] at hlimit
      omega
  | succ levels ih =>
      intro _ body rest hrest
      exact hrest.goals (ih (depth + 1) (by omega)) body

theorem Finishes.statements {rest : List Frame} (hrest : Finishes (some most) rest)
    (statements : List Statement) : Finishes (some most) (.statements statements :: rest) := by
  induction statements with
  | nil => exact fun bindings _ hchoices => .step fun _ _ => hrest bindings _ hchoices
  | cons statement pending ih =>
      intro bindings choices hchoices
      apply Ends.step
      intro env nextFresh
      cases statement with
      | clause clause => exact hchoices
      | query goals => exact ih.goals (expandable most 0) goals bindings choices hchoices

theorem finishes (most : Nat) (frames : List Frame) : Finishes (some most) frames := by
  induction frames with
  | nil => exact finishes_nil _
  | cons frame rest ih =>
      cases frame with
      | goals pending depth => exact ih.goals (expandable most depth) pending
      | statements pending => exact ih.statements pending
      | project caller wanted => exact ih.project caller wanted

/-- Every machine comes to its end under a depth limit. -/
theorem ends (most : Nat) (machine : Machine) : machine.Ends (some most) := by
  have hchoices : ∀ choices : List Choice, Ends (some most) ⟨none, choices⟩ := by
    intro choices
    induction choices with
    | nil => exact .exhausted
    | cons choice choices ih =>
        obtain ⟨goal, bindings, rest, depth, untried⟩ := choice
        exact (finishes most rest).choice (expandable most depth) goal bindings untried ih
  obtain ⟨current, choices⟩ := machine
  cases current with
  | none => exact hchoices choices
  | some branch => exact finishes most branch.frames branch.bindings choices (hchoices choices)

end Limit

end Machine

/-- The states of a search as time goes by.  Between two steps others may store
what they like, change files and hand out names. -/
def Search.Timeline (limit : Option Nat) (states : Nat → Search) : Prop :=
  ∀ time, ∃ env nextFresh,
    states (time + 1) = Search.advance limit { states time with env, nextFresh }

namespace Search

variable {limit : Option Nat} {states : Nat → Search}

theorem Timeline.exists_exhausted (hstates : Timeline limit states) {time : Nat}
    (hends : (states time).machine.Ends limit) :
    ∃ later, (states later).machine = ⟨none, []⟩ := by
  generalize hmachine : (states time).machine = machine at hends
  induction hends generalizing time with
  | exhausted => exact ⟨time, hmachine⟩
  | step _ ih =>
      obtain ⟨env, nextFresh, hnext⟩ := hstates time
      have hlater : (states (time + 1)).machine = _ := congrArg Search.machine hnext
      subst hmachine
      exact ih env nextFresh hlater

/-- A search that is exhausted stays so. -/
theorem Timeline.machine_of_exhausted (hstates : Timeline limit states) {time later : Nat}
    (hexhausted : (states time).machine = ⟨none, []⟩) (hlater : time ≤ later) :
    (states later).machine = ⟨none, []⟩ := by
  induction later, hlater using Nat.le_induction with
  | base => exact hexhausted
  | succ later _ ih =>
      obtain ⟨env, nextFresh, hnext⟩ := hstates later
      rw [hnext, advance, Search.after, ih]
      rfl

end Search

/-- Under a depth limit every search is exhausted after finitely many steps, from
whatever state it starts, and whatever is stored by itself or by others meanwhile. -/
theorem search_ends_under_limit (most : Nat) (states : Nat → Search)
    (hstates : Search.Timeline (some most) states) :
    ∃ steps, ∀ time, steps ≤ time → ∀ env nextFresh,
      ((states time).machine.step env (some most) nextFresh).outcome = .exhausted := by
  obtain ⟨steps, hexhausted⟩ := hstates.exists_exhausted (Machine.ends most (states 0).machine)
  refine ⟨steps, fun time htime env nextFresh => ?_⟩
  rw [hstates.machine_of_exhausted hexhausted htime]
  rfl

/-- The program `p(X) :- assert(p(X)), p(X).`, which adds to the predicate that it
is asked for. -/
def growingEngine : Engine :=
  (Engine.fresh (some 2) (.fresh none) .empty).insertAll
    [.clause (.rule ⟨"p", [.var "X"]⟩
      [.fact ⟨"assert", [.fact "p" [.var "X"]]⟩, .fact ⟨"p", [.var "X"]⟩])]

/-- The query `?- p(a).` on it, undisturbed: it stores two facts on its way. -/
theorem growing_search_ends :
    let states := fun time =>
      (Search.advance (some 2))^[time] (growingEngine.searchFor [.fact ⟨"p", [.atom "a"]⟩])
    Search.Timeline (some 2) states ∧ (states 40).env.theory.size = 3 ∧
      ∃ steps, ∀ time, steps ≤ time → ∀ env nextFresh,
        ((states time).machine.step env (some 2) nextFresh).outcome = .exhausted := by
  intro states
  have hstates : Search.Timeline (some 2) states := fun time =>
    ⟨(states time).env, (states time).nextFresh, Function.iterate_succ_apply' _ _ _⟩
  exact ⟨hstates, by decide +kernel, search_ends_under_limit 2 states hstates⟩

end Horn
