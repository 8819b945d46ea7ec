/-
Lists of statements.  Resolving queries one after another is resolving one query
with all their goals: the frames for what is left of the list stand where that
query has its remaining goals.  A clause in the list takes the place of the
answers, and leaves the rest of the search as it is.
-/
import Horn.Proofs.Names
import Horn.Proofs.Stuttering
import Mathlib.Algebra.GroupWithZero.Nat

namespace Horn

/-- What is left of a query, which may have been taken off once it has no goals. -/
inductive Leftover (goals : Query) : List Frame → Prop
  | pending : Leftover goals [.goals goals 0]
  | done (hgoals : goals = []) : Leftover goals []

/-- The frames of a list of queries with this ending, and those of the one query
that has all their goals: they differ only below the frames of rules. -/
inductive Joined (ending : List Statement) : List Frame → List Frame → Prop
  | goals (pending : Query) (queries : List Query) {frames : List Frame}
      (hleft : Leftover (pending ++ queries.flatten) frames) :
      Joined ending [.goals pending 0, .statements (queries.map .query ++ ending)] frames
  | statements (queries : List Query) {frames : List Frame}
      (hleft : Leftover queries.flatten frames) :
      Joined ending [.statements (queries.map .query ++ ending)] frames
  | done {frames : List Frame} (hending : ending = []) (hleft : Leftover [] frames) :
      Joined ending [] frames
  | frame (frame : Frame) {left right : List Frame} (hrest : Joined ending left right) :
      Joined ending (frame :: left) (frame :: right)

inductive Branch.Joined (ending : List Statement) : Branch → Branch → Prop
  | intro (bindings : Bindings) {left right : List Frame}
      (hframes : Horn.Joined ending left right) : Joined ending ⟨bindings, left⟩ ⟨bindings, right⟩

inductive Choice.Joined (ending : List Statement) : Choice → Choice → Prop
  | intro (goal : Fact) (bindings : Bindings) {left right : List Frame}
      (hrest : Horn.Joined ending left right) (depth : Nat) (untried : List Clause) :
      Joined ending ⟨goal, bindings, left, depth, untried⟩ ⟨goal, bindings, right, depth, untried⟩

structure Machine.Joined (ending : List Statement) (left right : Machine) : Prop where
  current : Option.Rel (Branch.Joined ending) left.current right.current
  choices : List.Forall₂ (Choice.Joined ending) left.choices right.choices

/-- The steps that a frame takes without proving anything. -/
def Frame.chores : Frame → Nat
  | .goals _ _ => 1
  | .statements pending => 2 * pending.length + 1
  | .project _ _ => 0

def Machine.chores (machine : Machine) : Nat :=
  match machine.current with
  | some branch => (branch.frames.map Frame.chores).sum
  | none => 0

/-- How the search of the one query is looked at: behind a clause there are no
answers. -/
def viewBefore : List Statement → Outcome → Outcome
  | [] => id
  | _ :: _ => Outcome.mute

theorem isView_viewBefore (ending : List Statement) : IsView (viewBefore ending) := by
  cases ending with
  | nil => exact isView_id
  | cons statement ending => exact isView_mute

section Steps

variable {ending : List Statement} {limit : Option Nat}

theorem leftover_pushGoals (goals : Query) : Leftover goals (pushGoals goals 0 []) := by
  cases goals with
  | nil => exact .done rfl
  | cons goal goals => exact .pending

theorem Joined.pushGoals {left right : List Frame} (hrest : Joined ending left right)
    (pending : Query) (depth : Nat) :
    Joined ending (pushGoals pending depth left) (pushGoals pending depth right) := by
  cases pending with
  | nil => exact hrest
  | cons goal pending => exact .frame _ hrest

/-- What is left behind a goal of the list is what is left behind it in the query. -/
theorem joined_pushGoals (pending : Query) (queries : List Query) :
    Joined ending (pushGoals pending 0 [.statements (queries.map .query ++ ending)])
      (pushGoals (pending ++ queries.flatten) 0 []) := by
  cases pending with
  | nil => exact .statements queries (leftover_pushGoals _)
  | cons goal pending => exact .goals (goal :: pending) queries .pending

/-- The machine that goes on with a result, if there is one. -/
theorem Machine.joined_map {left right : List Frame} {leftChoices rightChoices : List Choice}
    (hrest : Horn.Joined ending left right)
    (hchoices : leftChoices.Forall₂ (Choice.Joined ending) rightChoices)
    (result : Option Bindings) :
    Machine.Joined ending ⟨result.map (⟨·, left⟩), leftChoices⟩
      ⟨result.map (⟨·, right⟩), rightChoices⟩ := by
  cases result with
  | none => exact ⟨.none, hchoices⟩
  | some found => exact ⟨.some (.intro found hrest), hchoices⟩

theorem Machine.joined_select {left right : List Frame} {leftChoices rightChoices : List Choice}
    (hrest : Horn.Joined ending left right)
    (hchoices : leftChoices.Forall₂ (Choice.Joined ending) rightChoices) (env : Environment)
    (bindings : Bindings) (depth : Nat) (goal : Goal) :
    (select env leftChoices bindings left depth goal).1 =
        (select env rightChoices bindings right depth goal).1 ∧
      Machine.Joined ending (select env leftChoices bindings left depth goal).2
        (select env rightChoices bindings right depth goal).2 := by
  cases goal with
  | assign target value => exact ⟨rfl, joined_map hrest hchoices _⟩
  | fact goal =>
      rw [select, select]
      split
      · exact ⟨rfl, joined_map hrest hchoices _⟩
      · exact ⟨rfl, .none, .cons (.intro goal bindings hrest depth _) hchoices⟩

theorem Choice.Joined.attempt {left right : Choice} (hchoice : Choice.Joined ending left right)
    (limit : Option Nat) (nextFresh : Nat) (clause : Clause) :
    (left.attempt limit nextFresh clause).1 = (right.attempt limit nextFresh clause).1 ∧
      Option.Rel (Branch.Joined ending) (left.attempt limit nextFresh clause).2
        (right.attempt limit nextFresh clause).2 := by
  obtain ⟨goal, bindings, hrest, depth, untried⟩ := hchoice
  cases clause with
  | fact stored =>
      rw [Choice.attempt_fact, Choice.attempt_fact]
      refine ⟨rfl, ?_⟩
      simp only
      cases unifyFacts _ goal bindings with
      | none => exact .none
      | some found => exact .some (.intro found hrest)
  | rule head body =>
      cases hlimit : belowLimit limit depth with
      | false =>
          rw [Choice.attempt_rule_of_limit nextFresh hlimit,
            Choice.attempt_rule_of_limit nextFresh hlimit]
          exact ⟨rfl, .none⟩
      | true =>
          rw [Choice.attempt_rule nextFresh hlimit, Choice.attempt_rule nextFresh hlimit]
          refine ⟨rfl, ?_⟩
          simp only
          cases unifyFacts _ (bindings.groundFact goal) .empty with
          | none => exact .none
          | some initial => exact .some (.intro initial (.frame _ (.frame _ hrest)))

/-- Both machines take a step that goes on. -/
theorem Machine.inPace_of_running {env : Environment} {nextFresh fresh : Nat}
    {events : List Event} {left right next next' : Machine}
    (hleft : left.step env limit nextFresh = ⟨events, fresh, .running next⟩)
    (hright : right.step env limit nextFresh = ⟨events, fresh, .running next'⟩)
    (hnext : Machine.Joined ending next next') :
    Machine.InPace id (viewBefore ending) limit (Machine.Joined ending) Machine.chores env
      nextFresh left right := by
  refine .together (by rw [hleft, hright]) (by rw [hleft, hright]) ?_
  rw [hleft, hright, isView_viewBefore ending next']
  exact .running hnext

section Advance

variable {env : Environment} {nextFresh : Nat} {bindings : Bindings} {frames : List Frame}
  {leftChoices rightChoices : List Choice}
  (hchoices : leftChoices.Forall₂ (Choice.Joined ending) rightChoices)
include hchoices

theorem Machine.inPace_goals (pending : Query) (queries : List Query)
    (hleft : Leftover (pending ++ queries.flatten) frames) :
    Machine.InPace id (viewBefore ending) limit (Machine.Joined ending) Machine.chores env
      nextFresh
      ⟨some ⟨bindings, [.goals pending 0, .statements (queries.map .query ++ ending)]⟩, leftChoices⟩
      ⟨some ⟨bindings, frames⟩, rightChoices⟩ := by
  cases pending with
  | nil =>
      refine .ahead rfl ?_ ⟨.some (.intro bindings (.statements queries hleft)), hchoices⟩
      simp only [chores, List.map_cons, List.map_nil, List.sum_cons, Frame.chores]
      omega
  | cons goal pending =>
      cases hleft with
      | done hgoals => cases hgoals
      | pending =>
          obtain ⟨hevents, hnext⟩ := joined_select (joined_pushGoals pending queries) hchoices env
            bindings 0 goal
          exact inPace_of_running rfl (by rw [hevents]; rfl) hnext

/-- Where the list is over, so is the query; a clause ends the branch there instead
of giving an answer. -/
theorem Machine.inPace_ending (hending : ∀ goals, ending.head? ≠ some (.query goals))
    (hleft : Leftover [] frames) :
    Machine.InPace id (viewBefore ending) limit (Machine.Joined ending) Machine.chores env
      nextFresh ⟨some ⟨bindings, [.statements ending]⟩, leftChoices⟩
      ⟨some ⟨bindings, frames⟩, rightChoices⟩ := by
  match ending with
  | [] =>
      refine .ahead rfl ?_ ⟨.some (.intro bindings (.done rfl hleft)), hchoices⟩
      simp only [chores, List.map_cons, List.map_nil, List.sum_cons, Frame.chores]
      omega
  | .query goals :: _ => exact absurd rfl (hending goals)
  | .clause clause :: more =>
      cases hleft with
      | pending =>
          refine .behind rfl ?_ ⟨.some (.intro bindings (.statements [] (.done rfl))), hchoices⟩
          simp [chores, Frame.chores]
      | done _ => exact .together rfl rfl (.running ⟨.none, hchoices⟩)

theorem Machine.inPace_statements (hending : ∀ goals, ending.head? ≠ some (.query goals))
    (queries : List Query) (hleft : Leftover queries.flatten frames) :
    Machine.InPace id (viewBefore ending) limit (Machine.Joined ending) Machine.chores env
      nextFresh ⟨some ⟨bindings, [.statements (queries.map .query ++ ending)]⟩, leftChoices⟩
      ⟨some ⟨bindings, frames⟩, rightChoices⟩ := by
  cases queries with
  | nil => exact inPace_ending hchoices hending hleft
  | cons goals queries =>
      have hnext : Machine.Joined ending
          ⟨some ⟨bindings, [.goals goals 0, .statements (queries.map .query ++ ending)]⟩,
            leftChoices⟩ ⟨some ⟨bindings, frames⟩, rightChoices⟩ :=
        ⟨.some (.intro bindings (.goals goals queries hleft)), hchoices⟩
      refine .ahead ?_ ?_ hnext
      · rfl
      · simp only [chores, List.map_cons, List.map_nil, List.sum_cons, List.sum_nil, Frame.chores,
          List.cons_append, List.length_cons]
        omega

/-- Frames that both have in front are taken up together. -/
theorem Machine.inPace_frame (frame : Frame) {left right : List Frame}
    (hrest : Horn.Joined ending left right) :
    Machine.InPace id (viewBefore ending) limit (Machine.Joined ending) Machine.chores env
      nextFresh ⟨some ⟨bindings, frame :: left⟩, leftChoices⟩
      ⟨some ⟨bindings, frame :: right⟩, rightChoices⟩ := by
  have hgo : ∀ {frames frames' : List Frame}, Horn.Joined ending frames frames' →
      Machine.Joined ending ⟨some ⟨bindings, frames⟩, leftChoices⟩
        ⟨some ⟨bindings, frames'⟩, rightChoices⟩ :=
    fun hframes => ⟨.some (.intro bindings hframes), hchoices⟩
  cases frame with
  | goals pending depth =>
      cases pending with
      | nil => exact inPace_of_running rfl rfl (hgo hrest)
      | cons goal pending =>
          obtain ⟨hevents, hnext⟩ :=
            joined_select (hrest.pushGoals pending depth) hchoices env bindings depth goal
          exact inPace_of_running rfl (by rw [hevents]; rfl) hnext
  | statements pending =>
      match pending with
      | [] => exact inPace_of_running rfl rfl (hgo hrest)
      | .query goals :: pending =>
          exact inPace_of_running rfl rfl (hgo (.frame _ (.frame _ hrest)))
      | .clause clause :: pending => exact inPace_of_running rfl rfl ⟨.none, hchoices⟩
  | project caller wanted =>
      exact inPace_of_running rfl rfl (joined_map hrest hchoices (project bindings wanted caller))

theorem Machine.inPace_advance (hending : ∀ goals, ending.head? ≠ some (.query goals))
    {left right : List Frame} (hframes : Horn.Joined ending left right) :
    Machine.InPace id (viewBefore ending) limit (Machine.Joined ending) Machine.chores env
      nextFresh ⟨some ⟨bindings, left⟩, leftChoices⟩ ⟨some ⟨bindings, right⟩, rightChoices⟩ := by
  cases hframes with
  | goals pending queries hleft => exact inPace_goals hchoices pending queries hleft
  | statements queries hleft => exact inPace_statements hchoices hending queries hleft
  | frame frame hrest => exact inPace_frame hchoices frame hrest
  | done hnone hleft =>
      subst hnone
      cases hleft with
      | pending =>
          refine .behind rfl ?_ ⟨.some (.intro bindings (.done rfl (.done rfl))), hchoices⟩
          simp [chores, Frame.chores]
      | done _ => exact .together rfl rfl (.answer bindings ⟨.none, hchoices⟩)

theorem Machine.inPace_retry :
    Machine.InPace id (viewBefore ending) limit (Machine.Joined ending) Machine.chores env
      nextFresh ⟨none, leftChoices⟩ ⟨none, rightChoices⟩ := by
  cases hchoices with
  | nil =>
      refine .together rfl rfl ?_
      cases ending with
      | nil => exact .exhausted ⟨.none, .nil⟩
      | cons statement ending => exact .exhausted ⟨.none, .nil⟩
  | @cons left right _ _ hchoice hchoices =>
      have hattempt := hchoice.attempt limit nextFresh
      obtain ⟨goal, bindings, hrest, depth, untried⟩ := hchoice
      cases untried with
      | nil => exact inPace_of_running rfl rfl ⟨.none, hchoices⟩
      | cons clause untried =>
          obtain ⟨hfresh, hbranch⟩ := hattempt clause
          have htail := List.Forall₂.cons (.intro goal bindings hrest depth untried) hchoices
          exact inPace_of_running rfl (by rw [hfresh]; rfl) ⟨hbranch, htail⟩

end Advance

/-- The two machines keep pace with each other. -/
theorem paced_joined (limit : Option Nat) (hending : ∀ goals, ending.head? ≠ some (.query goals)) :
    Paced id (viewBefore ending) limit (Machine.Joined ending) Machine.chores := by
  intro left right hjoined env nextFresh
  obtain ⟨current, choices⟩ := left
  obtain ⟨current', choices'⟩ := right
  obtain ⟨hcurrent, hchoices⟩ := hjoined
  cases hcurrent with
  | none => exact Machine.inPace_retry hchoices
  | some hbranch =>
      obtain ⟨bindings, hframes⟩ := hbranch
      exact Machine.inPace_advance hchoices hending hframes

/-- The machines that a list and its query start with. -/
theorem joined_ofStatements (queries : List Query) (bindings : Bindings) :
    Machine.Joined ending (.ofStatements (queries.map .query ++ ending) bindings)
      (.ofQuery queries.flatten bindings) :=
  ⟨.some (.intro bindings (.statements queries .pending)), .nil⟩

end Steps

/-- A list of queries and the one query of all their goals show the same, pull by
pull. -/
theorem plays_ofStatements_iff (limit : Option Nat) (queries : List Query) (bindings : Bindings)
    (glimpses : List Glimpse) :
    (Machine.ofStatements (queries.map .query) bindings).Plays limit glimpses ↔
      (Machine.ofQuery queries.flatten bindings).Plays limit glimpses := by
  have hpaced : Paced id id limit (Machine.Joined []) Machine.chores :=
    paced_joined limit fun _ heq => nomatch heq
  have hjoined : Machine.Joined [] (.ofStatements (queries.map .query) bindings)
      (.ofQuery queries.flatten bindings) := by
    have hstart : Machine.Joined [] (.ofStatements (queries.map .query ++ []) bindings)
        (.ofQuery queries.flatten bindings) := joined_ofStatements queries bindings
    rwa [List.append_nil] at hstart
  exact ⟨.of_paced hpaced hjoined, .of_paced hpaced.flip hjoined⟩

/-- Resolving queries one after another shows, pull by pull, what resolving one query
with all their goals shows: the same events and answers, with the same effects on
the world, whatever happens to it between pulls.  If a clause follows the queries,
the list has no answer.  Pulling it has the events and effects of going through the
answers of the query before the clause, as far as one goes, and comes to its end
where that does. -/
theorem statement_list_is_joined_query (limit : Option Nat) (queries : List Query)
    (bindings : Bindings) :
    (∀ glimpses, (Machine.ofStatements (queries.map .query) bindings).Plays limit glimpses ↔
      (Machine.ofQuery queries.flatten bindings).Plays limit glimpses) ∧
    ∀ (clause : Clause) (more : List Statement) (world : World),
      let list := world.search
        (.ofStatements (queries.map .query ++ .clause clause :: more) bindings)
      let query := world.search (.ofQuery queries.flatten bindings)
      (∀ fuel found, (list.pullUpTo limit fuel).2 ≠ .answer found) ∧
      ∀ (events : List Event) (after : World),
        ((∃ fuel machine, list.eventsUpTo limit fuel = events ∧
            list.pullUpTo limit fuel = (after.search machine, .unfinished)) ↔
          ∃ observations machine, Search.Shows limit query observations (after.search machine) ∧
            eventsOf observations = events) ∧
        ((∃ fuel machine, list.eventsUpTo limit fuel = events ∧
            list.pullUpTo limit fuel = (after.search machine, .exhausted)) ↔
          ∃ observations machine, Search.Drains limit query observations (after.search machine) ∧
            eventsOf observations = events) := by
  refine ⟨plays_ofStatements_iff limit queries bindings, fun clause more world => ?_⟩
  have hpaced : Paced id .mute limit (Machine.Joined (.clause clause :: more)) Machine.chores :=
    paced_joined limit fun _ heq => by cases heq
  have hjoined : Machine.Joined (.clause clause :: more) _ _ := joined_ofStatements queries bindings
  exact ⟨fun fuel found => hpaced.pull_ne_answer hjoined fuel found, fun events after =>
    ⟨hpaced.unfinished_iff_shows hjoined, hpaced.exhausted_iff_drains hjoined⟩⟩

end Horn
