/-
What a search shows from outside: its events and its answers, in the order in
which they come about.  A search is pulled for one answer after another until
it has none left; how many steps each pull takes does not matter, as long as
they are enough.
-/
import Mathlib.Tactic.Common
import Horn.Search.Machine

namespace Horn

/-- One thing that is seen while a search is advanced. -/
inductive Observation
  | event (seen : Event)
  | answer (found : Bindings)

def Observation.isAnswer : Observation → Bool
  | .answer _ => true
  | .event _ => false

/-- What the branches of a search share: the environment, the supply of fresh
names, and the first error that was reported. -/
structure World where
  env : Environment
  nextFresh : Nat
  failure : Option ResolveError

namespace World

/-- A search that has a machine to advance in this world. -/
def search (world : World) (machine : Machine) : Search :=
  ⟨world.env, world.nextFresh, machine, world.failure⟩

/-- The world after some events. -/
def record (world : World) (events : List Event) : World :=
  ⟨world.env.recordAll events, world.nextFresh, world.failure.or (firstReport? events)⟩

/-- The world after some fresh names have been handed out. -/
def spend (world : World) (names : Nat) : World :=
  { world with nextFresh := world.nextFresh + names }

@[simp] theorem record_nil (world : World) : world.record [] = world := by
  cases world
  simp [record, Environment.recordAll, firstReport?]

end World

namespace Search

/-- The events of a pull of at most `fuel` steps. -/
def eventsUpTo (limit : Option Nat) : Nat → Search → List Event
  | 0, _ => []
  | fuel + 1, search =>
      let step := search.machine.step search.env limit search.nextFresh
      match step.outcome with
      | .running machine => step.events ++ eventsUpTo limit fuel (search.after step machine)
      | .answer _ _ => step.events
      | .exhausted => step.events

/-- Pulling a search again and again, until there are no more answers, shows
these observations and leaves this search. -/
inductive Drains (limit : Option Nat) : Search → List Observation → Search → Prop
  | exhausted {search final : Search} (fuel : Nat)
      (hpull : search.pullUpTo limit fuel = (final, .exhausted)) :
      Drains limit search ((search.eventsUpTo limit fuel).map .event) final
  | answer {search next final : Search} {found : Bindings} {rest : List Observation} (fuel : Nat)
      (hpull : search.pullUpTo limit fuel = (next, .answer found))
      (hrest : Drains limit next rest final) :
      Drains limit search ((search.eventsUpTo limit fuel).map .event ++ .answer found :: rest)
        final

/-- Taking some steps shows these observations and leads to this search. -/
inductive Shows (limit : Option Nat) : Search → List Observation → Search → Prop
  | refl (search : Search) : Shows limit search [] search
  | running {search final : Search} {machine : Machine} {rest : List Observation}
      (houtcome : (search.machine.step search.env limit search.nextFresh).outcome =
        .running machine)
      (hrest : Shows limit
        (search.after (search.machine.step search.env limit search.nextFresh) machine) rest
        final) :
      Shows limit search
        ((search.machine.step search.env limit search.nextFresh).events.map .event ++ rest) final
  | answer {search final : Search} {machine : Machine} {found : Bindings}
      {rest : List Observation}
      (houtcome : (search.machine.step search.env limit search.nextFresh).outcome =
        .answer found machine)
      (hrest : Shows limit
        (search.after (search.machine.step search.env limit search.nextFresh) machine) rest
        final) :
      Shows limit search
        ((search.machine.step search.env limit search.nextFresh).events.map .event ++
          .answer found :: rest) final

theorem Shows.trans {limit : Option Nat} {first second third : Search}
    {before after : List Observation} (hfirst : Shows limit first before second)
    (hsecond : Shows limit second after third) : Shows limit first (before ++ after) third := by
  induction hfirst with
  | refl search => exact hsecond
  | running houtcome _ ih =>
      rw [List.append_assoc]
      exact .running houtcome (ih hsecond)
  | answer houtcome _ ih =>
      rw [List.append_assoc]
      exact .answer houtcome (ih hsecond)

/-- A step that goes on is counted among the steps of the pull it is part of. -/
theorem Drains.of_running {limit : Option Nat} {search final : Search} {machine : Machine}
    {rest : List Observation}
    (houtcome : (search.machine.step search.env limit search.nextFresh).outcome =
      .running machine)
    (hrest : Drains limit
      (search.after (search.machine.step search.env limit search.nextFresh) machine) rest final) :
    Drains limit search
      ((search.machine.step search.env limit search.nextFresh).events.map .event ++ rest)
      final := by
  have hpull : ∀ fuel, search.pullUpTo limit (fuel + 1) =
      (search.after (search.machine.step search.env limit search.nextFresh) machine).pullUpTo
        limit fuel := by
    intro fuel
    rw [pullUpTo]
    simp only [houtcome]
  have hevents : ∀ fuel, search.eventsUpTo limit (fuel + 1) =
      (search.machine.step search.env limit search.nextFresh).events ++
        (search.after (search.machine.step search.env limit search.nextFresh) machine).eventsUpTo
          limit fuel := by
    intro fuel
    rw [eventsUpTo]
    simp only [houtcome]
  cases hrest with
  | exhausted fuel hlast =>
      rw [← List.map_append, ← hevents]
      exact .exhausted (fuel + 1) ((hpull fuel).trans hlast)
  | answer fuel hnext hrest =>
      rw [← List.append_assoc, ← List.map_append, ← hevents]
      exact .answer (fuel + 1) ((hpull fuel).trans hnext) hrest

/-- Without a branch and without choices, a search is at its end. -/
theorem pullUpTo_of_empty {search : Search} (hmachine : search.machine = ⟨none, []⟩)
    (limit : Option Nat) (fuel : Nat) :
    search.pullUpTo limit (fuel + 1) = (search, .exhausted) := by
  obtain ⟨env, nextFresh, machine, failure⟩ := search
  obtain rfl : machine = ⟨none, []⟩ := hmachine
  simp [pullUpTo, Machine.step, Machine.retry, Search.after, Environment.recordAll,
    firstReport?]

/-- A run that leaves nothing to try is seen by pulling. -/
theorem Shows.drains {limit : Option Nat} {search : Search} {world : World}
    {observations : List Observation}
    (hshows : Shows limit search observations (world.search ⟨none, []⟩)) :
    Drains limit search observations (world.search ⟨none, []⟩) := by
  generalize hfinal : world.search ⟨none, []⟩ = final at hshows
  induction hshows with
  | refl search =>
      subst hfinal
      exact .exhausted 1 (pullUpTo_of_empty rfl limit 0)
  | running houtcome _ ih => exact .of_running houtcome (ih hfinal)
  | @answer search final machine found rest houtcome _ ih =>
      have hpull : search.pullUpTo limit 1 =
          (search.after (search.machine.step search.env limit search.nextFresh) machine,
            .answer found) := by
        rw [pullUpTo]
        simp only [houtcome]
      have hevents : search.eventsUpTo limit 1 =
          (search.machine.step search.env limit search.nextFresh).events := by
        rw [eventsUpTo]
        simp only [houtcome]
      rw [← hevents]
      exact .answer 1 hpull (ih hfinal)

/-- More steps than a pull needs change nothing. -/
theorem pullUpTo_of_finished {limit : Option Nat} {fuel more : Nat} {search final : Search}
    {pull : Pull} (hpull : search.pullUpTo limit fuel = (final, pull))
    (hfinished : pull ≠ .unfinished) (hmore : fuel ≤ more) :
    search.pullUpTo limit more = (final, pull) ∧
      search.eventsUpTo limit more = search.eventsUpTo limit fuel := by
  induction fuel generalizing search more with
  | zero =>
      rw [pullUpTo, Prod.mk.injEq] at hpull
      exact absurd hpull.2.symm hfinished
  | succ fuel ih =>
      obtain ⟨more, rfl⟩ := Nat.exists_eq_add_of_lt (Nat.lt_of_succ_le hmore)
      rw [pullUpTo] at hpull ⊢
      rw [eventsUpTo, eventsUpTo]
      cases houtcome : (search.machine.step search.env limit search.nextFresh).outcome with
      | running machine =>
          simp only [houtcome] at hpull ⊢
          obtain ⟨hsame, hevents⟩ := ih hpull (Nat.le_add_right fuel more)
          exact ⟨hsame, by rw [hevents]⟩
      | answer found machine =>
          simp only [houtcome] at hpull ⊢
          exact ⟨hpull, trivial⟩
      | exhausted =>
          simp only [houtcome] at hpull ⊢
          exact ⟨hpull, trivial⟩

/-- Two pulls that are not given up agree. -/
theorem pullUpTo_unique {limit : Option Nat} {fuel fuel' : Nat} {search final final' : Search}
    {pull pull' : Pull} (hpull : search.pullUpTo limit fuel = (final, pull))
    (hpull' : search.pullUpTo limit fuel' = (final', pull')) (hfinished : pull ≠ .unfinished)
    (hfinished' : pull' ≠ .unfinished) :
    (final, pull) = (final', pull') ∧
      search.eventsUpTo limit fuel = search.eventsUpTo limit fuel' := by
  obtain ⟨hmax, hevents⟩ :=
    pullUpTo_of_finished hpull hfinished (Nat.le_max_left fuel fuel')
  obtain ⟨hmax', hevents'⟩ :=
    pullUpTo_of_finished hpull' hfinished' (Nat.le_max_right fuel fuel')
  exact ⟨hmax.symm.trans hmax', hevents.symm.trans hevents'⟩

theorem Drains.unique {limit : Option Nat} {search final final' : Search}
    {observations observations' : List Observation}
    (hdrains : Drains limit search observations final)
    (hdrains' : Drains limit search observations' final') :
    observations = observations' ∧ final = final' := by
  induction hdrains generalizing observations' final' with
  | exhausted fuel hpull =>
      cases hdrains' with
      | exhausted fuel' hpull' =>
          obtain ⟨hsame, hevents⟩ := pullUpTo_unique hpull hpull' (by simp) (by simp)
          exact ⟨by rw [hevents], (Prod.mk.inj hsame).1⟩
      | answer fuel' hpull' _ =>
          obtain ⟨hsame, _⟩ := pullUpTo_unique hpull hpull' (by simp) (by simp)
          cases (Prod.mk.inj hsame).2
  | answer fuel hpull _ ih =>
      cases hdrains' with
      | exhausted fuel' hpull' =>
          obtain ⟨hsame, _⟩ := pullUpTo_unique hpull hpull' (by simp) (by simp)
          cases (Prod.mk.inj hsame).2
      | answer fuel' hpull' hrest' =>
          obtain ⟨hsame, hevents⟩ := pullUpTo_unique hpull hpull' (by simp) (by simp)
          obtain ⟨rfl, hfound⟩ := Prod.mk.inj hsame
          obtain ⟨rfl, rfl⟩ := ih hrest'
          exact ⟨by rw [hevents, Pull.answer.inj hfound], rfl⟩

end Search

end Horn
