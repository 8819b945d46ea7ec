/-
Two machines that show the same at their own pace.  Each may take some steps that
only lead on, a bounded number of them before the next one that counts; then both
take the same step.  Whatever one shows when it is pulled, the other does.
-/
import Horn.Proofs.Observation

namespace Horn

/-- An answer taken for a step like any other. -/
def Outcome.mute : Outcome → Outcome
  | .running machine => .running machine
  | .answer _ machine => .running machine
  | .exhausted => .exhausted

/-- A way to look at outcomes that leaves steps which go on as they are. -/
def IsView (view : Outcome → Outcome) : Prop :=
  ∀ machine, view (.running machine) = .running machine

theorem isView_id : IsView id :=
  fun _ => rfl

theorem isView_mute : IsView Outcome.mute :=
  fun _ => rfl

/-- The world after a step. -/
def World.after (world : World) (step : Step) : World :=
  { world.record step.events with nextFresh := step.nextFresh }

theorem World.after_silent (world : World) (outcome : Outcome) :
    world.after ⟨[], world.nextFresh, outcome⟩ = world := by
  rw [after, record_nil]

/-- What a pull shows, what it leaves, and how it ends. -/
structure Played where
  events : List Event
  world : World
  machine : Machine
  pull : Pull

/-- What is shown after some events. -/
def Played.after (events : List Event) (played : Played) : Played :=
  { played with events := events ++ played.events }

/-- Advance a machine by at most `fuel` steps, up to its next answer in a view of it. -/
def Machine.play (view : Outcome → Outcome) (limit : Option Nat) :
    Nat → World → Machine → Played
  | 0, world, machine => ⟨[], world, machine, .unfinished⟩
  | fuel + 1, world, machine =>
      let step := machine.step world.env limit world.nextFresh
      match view step.outcome with
      | .running next => (play view limit fuel (world.after step) next).after step.events
      | .answer found next => ⟨step.events, world.after step, next, .answer found⟩
      | .exhausted => ⟨step.events, world.after step, ⟨none, []⟩, .exhausted⟩

section Views

variable {view : Outcome → Outcome} {limit : Option Nat} {world : World} {machine : Machine}

theorem Machine.play_of_running {fuel : Nat} {next : Machine}
    (houtcome : view (machine.step world.env limit world.nextFresh).outcome = .running next) :
    let step := machine.step world.env limit world.nextFresh
    machine.play view limit (fuel + 1) world =
      (next.play view limit fuel (world.after step)).after step.events := by
  intro step
  rw [play]
  simp only [houtcome]
  rfl

/-- A machine that is seen as it is shows what pulling it shows. -/
theorem Machine.play_id (limit : Option Nat) (fuel : Nat) (world : World) (machine : Machine) :
    let played := machine.play id limit fuel world
    (world.search machine).eventsUpTo limit fuel = played.events ∧
      (world.search machine).pullUpTo limit fuel =
        (played.world.search played.machine, played.pull) := by
  induction fuel generalizing world machine with
  | zero => exact ⟨rfl, rfl⟩
  | succ fuel ih =>
      rw [play, Search.eventsUpTo, Search.pullUpTo]
      change _ ∧ _
      simp only [World.search]
      cases houtcome : (machine.step world.env limit world.nextFresh).outcome with
      | running next =>
          obtain ⟨hevents, hpull⟩ :=
            ih (world.after (machine.step world.env limit world.nextFresh)) next
          exact ⟨congrArg _ hevents, hpull⟩
      | answer found next => exact ⟨rfl, rfl⟩
      | exhausted => exact ⟨rfl, rfl⟩

/-- Without its answers, a machine never stops at one. -/
theorem Machine.play_mute_ne_answer (fuel : Nat) (found : Bindings) :
    (machine.play .mute limit fuel world).pull ≠ .answer found := by
  induction fuel generalizing world machine with
  | zero => exact fun heq => nomatch heq
  | succ fuel ih =>
      rw [play]
      cases (machine.step world.env limit world.nextFresh).outcome with
      | running next => exact ih
      | answer other next => exact ih
      | exhausted => exact fun heq => nomatch heq

/-- A pull that comes to no answer looks the same without answers. -/
theorem Machine.play_mute_of_not_answer {fuel : Nat}
    (hpull : ∀ found, (machine.play id limit fuel world).pull ≠ .answer found) :
    machine.play .mute limit fuel world = machine.play id limit fuel world := by
  induction fuel generalizing world machine with
  | zero => rfl
  | succ fuel ih =>
      rw [play] at hpull
      rw [play, play]
      cases houtcome : (machine.step world.env limit world.nextFresh).outcome with
      | running next =>
          simp only [houtcome, id_eq] at hpull
          simp only [Outcome.mute, id_eq]
          rw [ih hpull]
      | answer found next =>
          simp only [houtcome, id_eq] at hpull
          exact absurd rfl (hpull found)
      | exhausted => rfl

/-- Without answers, a machine goes on where a pull stops at one. -/
theorem Machine.play_mute_of_answer {fuel : Nat} {found : Bindings}
    (hpull : (machine.play id limit fuel world).pull = .answer found) :
    let played := machine.play id limit fuel world
    ∃ steps, ∀ more, machine.play .mute limit (steps + more) world =
      (played.machine.play .mute limit more played.world).after played.events := by
  induction fuel generalizing world machine with
  | zero => cases hpull
  | succ fuel ih =>
      rw [play] at hpull ⊢
      cases houtcome : (machine.step world.env limit world.nextFresh).outcome with
      | running next =>
          simp only [houtcome, id_eq] at hpull ⊢
          obtain ⟨steps, hsteps⟩ := ih hpull
          refine ⟨steps + 1, fun more => ?_⟩
          rw [Nat.add_right_comm, play]
          simp only [houtcome, Outcome.mute, hsteps more, Played.after, List.append_assoc]
      | answer other next =>
          refine ⟨1, fun more => ?_⟩
          rw [Nat.add_comm, play]
          simp only [houtcome, Outcome.mute, id_eq]
      | exhausted =>
          simp only [houtcome, id_eq] at hpull
          cases hpull

end Views

def Observation.event? : Observation → Option Event
  | .event seen => some seen
  | .answer _ => none

/-- The events among some observations. -/
def eventsOf (observations : List Observation) : List Event :=
  observations.filterMap Observation.event?

@[simp] theorem eventsOf_append (before after : List Observation) :
    eventsOf (before ++ after) = eventsOf before ++ eventsOf after :=
  List.filterMap_append

@[simp] theorem eventsOf_answer (found : Bindings) (rest : List Observation) :
    eventsOf (.answer found :: rest) = eventsOf rest :=
  rfl

@[simp] theorem eventsOf_events (events : List Event) :
    eventsOf (events.map .event) = events := by
  simp [eventsOf, Observation.event?, List.filterMap_map, Function.comp_def]

namespace Search

variable {limit : Option Nat}

/-- The world that a search is in. -/
def world (search : Search) : World :=
  ⟨search.env, search.nextFresh, search.failure⟩

/-- The steps of a machine, taken one after another, are a run of it. -/
theorem exists_shows_of_play {world : World} {machine : Machine} {fuel : Nat}
    (hpull : (machine.play .mute limit fuel world).pull = .unfinished) :
    let played := machine.play .mute limit fuel world
    ∃ observations, Shows limit (world.search machine) observations
        (played.world.search played.machine) ∧ eventsOf observations = played.events := by
  induction fuel generalizing world machine with
  | zero => exact ⟨[], .refl _, rfl⟩
  | succ fuel ih =>
      rw [Machine.play] at hpull ⊢
      cases houtcome : (machine.step world.env limit world.nextFresh).outcome with
      | running next =>
          simp only [houtcome, Outcome.mute] at hpull ⊢
          obtain ⟨observations, hshows, hevents⟩ := ih hpull
          refine ⟨_, .running houtcome hshows, ?_⟩
          rw [eventsOf_append, eventsOf_events, hevents]
          rfl
      | answer found next =>
          simp only [houtcome, Outcome.mute] at hpull ⊢
          obtain ⟨observations, hshows, hevents⟩ := ih hpull
          refine ⟨_, .answer houtcome hshows, ?_⟩
          rw [eventsOf_append, eventsOf_events, eventsOf_answer, hevents]
          rfl
      | exhausted =>
          simp only [houtcome, Outcome.mute] at hpull
          cases hpull

/-- The first step of a search that goes on or has an answer. -/
theorem play_of_mute {search : Search} {machine : Machine} {fuel : Nat}
    (houtcome : (search.machine.step search.env limit search.nextFresh).outcome.mute =
      .running machine) :
    let step := search.machine.step search.env limit search.nextFresh
    search.machine.play .mute limit (fuel + 1) search.world =
      (machine.play .mute limit fuel (search.after step machine).world).after step.events :=
  Machine.play_of_running
    (show (search.machine.step search.world.env limit search.world.nextFresh).outcome.mute =
      .running machine from houtcome)

theorem exists_play_of_shows {search final : Search} {observations : List Observation}
    (hshows : Shows limit search observations final) :
    ∃ fuel, search.machine.play .mute limit fuel search.world =
      ⟨eventsOf observations, final.world, final.machine, .unfinished⟩ := by
  induction hshows with
  | refl search => exact ⟨0, rfl⟩
  | running houtcome _ ih =>
      obtain ⟨fuel, hplay⟩ := ih
      refine ⟨fuel + 1, (play_of_mute (congrArg Outcome.mute houtcome)).trans ?_⟩
      rw [eventsOf_append, eventsOf_events]
      exact congrArg _ hplay
  | answer houtcome _ ih =>
      obtain ⟨fuel, hplay⟩ := ih
      refine ⟨fuel + 1, (play_of_mute (congrArg Outcome.mute houtcome)).trans ?_⟩
      rw [eventsOf_append, eventsOf_events, eventsOf_answer]
      exact congrArg _ hplay

/-- A machine that comes to its end has been drained. -/
theorem exists_drains_of_play {world : World} {machine : Machine} {fuel : Nat}
    (hpull : (machine.play .mute limit fuel world).pull = .exhausted) :
    let played := machine.play .mute limit fuel world
    ∃ observations, Drains limit (world.search machine) observations
        (played.world.search ⟨none, []⟩) ∧ eventsOf observations = played.events := by
  induction fuel generalizing world machine with
  | zero => cases hpull
  | succ fuel ih =>
      have hpulled := Machine.play_id limit 1 world machine
      rw [Machine.play] at hpull hpulled ⊢
      cases houtcome : (machine.step world.env limit world.nextFresh).outcome with
      | running next =>
          simp only [houtcome, Outcome.mute] at hpull ⊢
          obtain ⟨observations, hdrains, hevents⟩ := ih hpull
          refine ⟨_, .of_running houtcome hdrains, ?_⟩
          rw [eventsOf_append, eventsOf_events, hevents]
          rfl
      | answer found next =>
          simp only [houtcome, Outcome.mute, id_eq] at hpull hpulled ⊢
          obtain ⟨observations, hdrains, hevents⟩ := ih hpull
          refine ⟨_, .answer 1 hpulled.2 hdrains, ?_⟩
          rw [eventsOf_append, eventsOf_events, eventsOf_answer, hevents, hpulled.1]
          rfl
      | exhausted =>
          simp only [houtcome, Outcome.mute, id_eq] at hpull hpulled ⊢
          refine ⟨_, .exhausted 1 hpulled.2, ?_⟩
          rw [eventsOf_events, hpulled.1]

theorem exists_play_of_drains {search final : Search} {observations : List Observation}
    (hdrains : Drains limit search observations final) :
    ∃ fuel, search.machine.play .mute limit fuel search.world =
      ⟨eventsOf observations, final.world, final.machine, .exhausted⟩ := by
  induction hdrains with
  | @exhausted search final fuel hpull =>
      obtain ⟨hevents, hplayed⟩ := Machine.play_id limit fuel search.world search.machine
      obtain ⟨hfinal, hend⟩ := Prod.mk.inj (hpull.symm.trans hplayed)
      refine ⟨fuel, ?_⟩
      rw [Machine.play_mute_of_not_answer (by rw [← hend]; exact fun found heq => nomatch heq),
        eventsOf_events, hfinal, hend]
      exact congrArg (fun events => Played.mk events _ _ _) hevents.symm
  | @answer search next final found rest fuel hpull _ ih =>
      obtain ⟨hevents, hplayed⟩ := Machine.play_id limit fuel search.world search.machine
      obtain ⟨hnext, hend⟩ := Prod.mk.inj (hpull.symm.trans hplayed)
      obtain ⟨more, hmore⟩ := ih
      obtain ⟨steps, hsteps⟩ := Machine.play_mute_of_answer hend.symm
      refine ⟨steps + more, (hsteps more).trans ?_⟩
      rw [hnext] at hmore
      rw [eventsOf_append, eventsOf_events, eventsOf_answer]
      exact (congrArg (Played.after _) hmore).trans
        (congrArg (fun events => Played.mk (events ++ eventsOf rest) _ _ _) hevents.symm)

end Search

section Paced

variable (view view' : Outcome → Outcome) (limit : Option Nat) (related : Machine → Machine → Prop)
  (chores : Machine → Nat)

/-- Outcomes of one kind that leave related machines. -/
inductive Outcome.Alike : Outcome → Outcome → Prop
  | running {left right : Machine} (hrelated : related left right) :
      Alike (.running left) (.running right)
  | answer (found : Bindings) {left right : Machine} (hrelated : related left right) :
      Alike (.answer found left) (.answer found right)
  | exhausted (hrelated : related ⟨none, []⟩ ⟨none, []⟩) : Alike .exhausted .exhausted

/-- One of two machines takes a step that only leads on, and has fewer of those
left, or both take a step that looks the same. -/
inductive Machine.InPace (env : Environment) (nextFresh : Nat) (left right : Machine) : Prop
  | ahead {next : Machine}
      (hstep : left.step env limit nextFresh = ⟨[], nextFresh, .running next⟩)
      (hless : chores next < chores left) (hrelated : related next right)
  | behind {next : Machine}
      (hstep : right.step env limit nextFresh = ⟨[], nextFresh, .running next⟩)
      (hless : chores next < chores right) (hrelated : related left next)
  | together
      (hevents : (left.step env limit nextFresh).events =
        (right.step env limit nextFresh).events)
      (hfresh : (left.step env limit nextFresh).nextFresh =
        (right.step env limit nextFresh).nextFresh)
      (houtcome : Outcome.Alike related (view (left.step env limit nextFresh).outcome)
        (view' (right.step env limit nextFresh).outcome))

/-- Related machines stay related, whatever world they go on in. -/
def Paced : Prop :=
  ∀ left right, related left right → ∀ env nextFresh,
    Machine.InPace view view' limit related chores env nextFresh left right

/-- Two pulls show the same, and leave related machines in one world. -/
structure Played.Agrees (left right : Played) : Prop where
  events : left.events = right.events
  world : left.world = right.world
  machine : related left.machine right.machine
  pull : left.pull = right.pull

end Paced

section Simulation

variable {view view' : Outcome → Outcome} {limit : Option Nat}
  {related : Machine → Machine → Prop} {chores : Machine → Nat}

theorem Outcome.Alike.flip {left right : Outcome} (halike : Outcome.Alike related left right) :
    Outcome.Alike (fun left right => related right left) right left := by
  cases halike with
  | running hrelated => exact .running hrelated
  | answer found hrelated => exact .answer found hrelated
  | exhausted hrelated => exact .exhausted hrelated

/-- Neither of the two machines is the one that sets the pace. -/
theorem Paced.flip (hpaced : Paced view view' limit related chores) :
    Paced view' view limit (fun left right => related right left) chores := by
  intro left right hrelated env nextFresh
  cases hpaced right left hrelated env nextFresh with
  | ahead hstep hless hnext => exact .behind hstep hless hnext
  | behind hstep hless hnext => exact .ahead hstep hless hnext
  | together hevents hfresh houtcome => exact .together hevents.symm hfresh.symm houtcome.flip

/-- A step that only leads on shows nothing and leaves the world as it is. -/
theorem Machine.play_of_chore (hview : IsView view) {world : World} {machine next : Machine}
    (hstep : machine.step world.env limit world.nextFresh = ⟨[], world.nextFresh, .running next⟩)
    (fuel : Nat) :
    machine.play view limit (fuel + 1) world = next.play view limit fuel world := by
  have houtcome : view (machine.step world.env limit world.nextFresh).outcome = .running next := by
    rw [hstep]
    exact hview next
  rw [play_of_running houtcome, hstep, World.after_silent]
  rfl

/-- The step that two machines take together. -/
theorem Machine.exists_agrees_of_together {fuel : Nat} {world : World} {left right : Machine}
    (hlater : ∀ {left right : Machine}, related left right → ∀ world,
      ∃ more, Played.Agrees related (left.play view limit fuel world)
        (right.play view' limit more world))
    (hevents : (left.step world.env limit world.nextFresh).events =
      (right.step world.env limit world.nextFresh).events)
    (hfresh : (left.step world.env limit world.nextFresh).nextFresh =
      (right.step world.env limit world.nextFresh).nextFresh)
    (houtcome : Outcome.Alike related (view (left.step world.env limit world.nextFresh).outcome)
      (view' (right.step world.env limit world.nextFresh).outcome)) :
    ∃ more, Played.Agrees related (left.play view limit (fuel + 1) world)
      (right.play view' limit more world) := by
  have hworld : world.after (left.step world.env limit world.nextFresh) =
      world.after (right.step world.env limit world.nextFresh) := by
    rw [World.after, World.after, hevents, hfresh]
  generalize hleft : view (left.step world.env limit world.nextFresh).outcome = outcome at houtcome
  generalize hright : view' (right.step world.env limit world.nextFresh).outcome = outcome'
    at houtcome
  cases houtcome with
  | @running next next' hrelated =>
      obtain ⟨more, hagrees⟩ :=
        hlater hrelated (world.after (right.step world.env limit world.nextFresh))
      refine ⟨more + 1, ?_⟩
      rw [play_of_running hleft, play_of_running hright, hevents, hworld]
      exact ⟨congrArg (List.append _) hagrees.events, hagrees.world, hagrees.machine, hagrees.pull⟩
  | answer found hrelated =>
      refine ⟨1, ?_⟩
      rw [play, play]
      simp only [hleft, hright]
      exact ⟨hevents, hworld, hrelated, rfl⟩
  | exhausted hrelated =>
      refine ⟨1, ?_⟩
      rw [play, play]
      simp only [hleft, hright]
      exact ⟨hevents, hworld, hrelated, rfl⟩

/-- Whatever one of two related machines shows, the other shows.  The induction is
on the steps of the one, and between two of them on the chores of the other. -/
theorem Paced.exists_agrees (hpaced : Paced view view' limit related chores)
    (hview : IsView view) (hview' : IsView view') {left right : Machine}
    (hrelated : related left right) (fuel : Nat) (world : World) :
    ∃ more, Played.Agrees related (left.play view limit fuel world)
      (right.play view' limit more world) := by
  induction fuel generalizing world left right with
  | zero => exact ⟨0, rfl, rfl, hrelated, rfl⟩
  | succ fuel ih =>
      induction hchores : chores right using Nat.strongRecOn generalizing right with
      | _ count ihChores =>
          cases hpaced left right hrelated world.env world.nextFresh with
          | ahead hstep _ hnext =>
              rw [Machine.play_of_chore hview hstep]
              exact ih hnext world
          | behind hstep hless hnext =>
              obtain ⟨more, hagrees⟩ := ihChores _ (hchores ▸ hless) hnext rfl
              exact ⟨more + 1, by rwa [Machine.play_of_chore hview' hstep]⟩
          | together hevents hfresh houtcome =>
              exact Machine.exists_agrees_of_together ih hevents hfresh houtcome

end Simulation

theorem World.search_injective {world world' : World} {machine machine' : Machine}
    (heq : world.search machine = world'.search machine') :
    world = world' ∧ machine = machine' := by
  cases world
  cases world'
  obtain ⟨rfl, rfl, rfl, rfl⟩ := Search.mk.inj heq
  exact ⟨rfl, rfl⟩

section Muted

variable {limit : Option Nat} {related : Machine → Machine → Prop} {chores : Machine → Nat}
  (hpaced : Paced id .mute limit related chores) {left right : Machine}
  (hrelated : related left right) {world after : World} {events : List Event}
include hpaced hrelated

theorem Paced.pull_ne_answer (fuel : Nat) (found : Bindings) :
    ((world.search left).pullUpTo limit fuel).2 ≠ .answer found := by
  obtain ⟨more, hagrees⟩ := hpaced.exists_agrees isView_id isView_mute hrelated fuel world
  rw [(Machine.play_id limit fuel world left).2, hagrees.pull]
  exact Machine.play_mute_ne_answer more found

/-- What pulling the one machine shows, the other shows apart from its answers. -/
theorem Paced.exists_play_of_pull {fuel : Nat} {machine : Machine} {pull : Pull}
    (hevents : (world.search left).eventsUpTo limit fuel = events)
    (hpull : (world.search left).pullUpTo limit fuel = (after.search machine, pull)) :
    ∃ more next, right.play .mute limit more world = ⟨events, after, next, pull⟩ := by
  obtain ⟨more, hagrees⟩ := hpaced.exists_agrees isView_id isView_mute hrelated fuel world
  obtain ⟨hplayed, hpulled⟩ := Machine.play_id limit fuel world left
  obtain ⟨hafter, hend⟩ := Prod.mk.inj (hpull.symm.trans hpulled)
  obtain ⟨hworld, _⟩ := World.search_injective hafter
  refine ⟨more, (right.play .mute limit more world).machine, ?_⟩
  rw [← hevents, hplayed, hworld, hend, hagrees.events, hagrees.world, hagrees.pull]

theorem Paced.exists_pull_of_play {fuel : Nat} {next : Machine} {pull : Pull}
    (hplay : right.play .mute limit fuel world = ⟨events, after, next, pull⟩) :
    ∃ more machine, (world.search left).eventsUpTo limit more = events ∧
      (world.search left).pullUpTo limit more = (after.search machine, pull) := by
  obtain ⟨more, hagrees⟩ := hpaced.flip.exists_agrees isView_mute isView_id hrelated fuel world
  rw [hplay] at hagrees
  obtain ⟨hplayed, hpulled⟩ := Machine.play_id limit more world left
  refine ⟨more, (left.play id limit more world).machine,
    hplayed.trans hagrees.events.symm, hpulled.trans ?_⟩
  rw [← hagrees.world, ← hagrees.pull]

/-- Part of the one pull is part of a run of the other machine. -/
theorem Paced.unfinished_iff_shows :
    (∃ fuel machine, (world.search left).eventsUpTo limit fuel = events ∧
      (world.search left).pullUpTo limit fuel = (after.search machine, .unfinished)) ↔
    ∃ observations machine, Search.Shows limit (world.search right) observations
      (after.search machine) ∧ eventsOf observations = events := by
  constructor
  · rintro ⟨fuel, machine, hevents, hpull⟩
    obtain ⟨more, next, hplay⟩ := hpaced.exists_play_of_pull hrelated hevents hpull
    have hshows := Search.exists_shows_of_play (congrArg Played.pull hplay)
    rw [hplay] at hshows
    obtain ⟨observations, hshows⟩ := hshows
    exact ⟨observations, next, hshows⟩
  · rintro ⟨observations, machine, hshows, rfl⟩
    obtain ⟨fuel, hplay⟩ := Search.exists_play_of_shows hshows
    exact hpaced.exists_pull_of_play hrelated hplay

/-- The one pull comes to its end where the other machine is drained. -/
theorem Paced.exhausted_iff_drains :
    (∃ fuel machine, (world.search left).eventsUpTo limit fuel = events ∧
      (world.search left).pullUpTo limit fuel = (after.search machine, .exhausted)) ↔
    ∃ observations machine, Search.Drains limit (world.search right) observations
      (after.search machine) ∧ eventsOf observations = events := by
  constructor
  · rintro ⟨fuel, machine, hevents, hpull⟩
    obtain ⟨more, next, hplay⟩ := hpaced.exists_play_of_pull hrelated hevents hpull
    have hdrains := Search.exists_drains_of_play (congrArg Played.pull hplay)
    rw [hplay] at hdrains
    obtain ⟨observations, hdrains⟩ := hdrains
    exact ⟨observations, ⟨none, []⟩, hdrains⟩
  · rintro ⟨observations, machine, hdrains, rfl⟩
    obtain ⟨fuel, hplay⟩ := Search.exists_play_of_drains hdrains
    exact hpaced.exists_pull_of_play hrelated hplay

end Muted

/-- What is seen of one pull: the world before it, its events, how it ends, and the
world after it. -/
structure Glimpse where
  before : World
  events : List Event
  pull : Pull
  after : World

/-- A machine shows this, pull by pull.  Between two pulls the world may have changed
in any way, and a pull may be given up after any number of steps. -/
def Machine.Plays (limit : Option Nat) : Machine → List Glimpse → Prop
  | _, [] => True
  | machine, glimpse :: later =>
      ∃ fuel next, (glimpse.before.search machine).eventsUpTo limit fuel = glimpse.events ∧
        (glimpse.before.search machine).pullUpTo limit fuel =
          (glimpse.after.search next, glimpse.pull) ∧
        Machine.Plays limit next later

/-- Related machines show the same pulls. -/
theorem Machine.Plays.of_paced {limit : Option Nat} {related : Machine → Machine → Prop}
    {chores : Machine → Nat} (hpaced : Paced id id limit related chores)
    {glimpses : List Glimpse} {left right : Machine} (hrelated : related left right)
    (hplays : left.Plays limit glimpses) : right.Plays limit glimpses := by
  induction glimpses generalizing left right with
  | nil => trivial
  | cons glimpse later ih =>
      obtain ⟨fuel, next, hevents, hpull, hlater⟩ := hplays
      obtain ⟨hplayed, hpulled⟩ := Machine.play_id limit fuel glimpse.before left
      obtain ⟨hafter, hend⟩ := Prod.mk.inj (hpull.symm.trans hpulled)
      obtain ⟨hworld, rfl⟩ := World.search_injective hafter
      obtain ⟨more, hagrees⟩ := hpaced.exists_agrees isView_id isView_id hrelated fuel
        glimpse.before
      obtain ⟨hplayed', hpulled'⟩ := Machine.play_id limit more glimpse.before right
      refine ⟨more, _, ?_, ?_, ih hagrees.machine hlater⟩
      · rw [hplayed', ← hagrees.events, ← hplayed, hevents]
      · rw [hpulled', ← hagrees.world, ← hagrees.pull, ← hworld, ← hend]

end Horn
