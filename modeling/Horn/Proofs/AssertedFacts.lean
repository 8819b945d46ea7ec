/-
Facts that were asserted are found.  What is stored is the fact with its complete
values under new names, and it is tried after all that was stored before.  Under a
depth limit the search comes to it, and since its copy has names of its own, it
unifies with the goal without a new constraint on older names.
-/
import Horn.Proofs.Completeness
import Horn.Proofs.Hygiene
import Horn.Proofs.Stuttering
import Horn.Proofs.Termination

namespace Horn

/-- A machine with further choices below its own. -/
def Machine.above (lower : List Choice) (machine : Machine) : Machine :=
  ⟨machine.current, machine.choices ++ lower⟩

def Outcome.above (lower : List Choice) : Outcome → Outcome
  | .running machine => .running (machine.above lower)
  | .answer found machine => .answer found (machine.above lower)
  | .exhausted => .exhausted

def Step.above (lower : List Choice) (step : Step) : Step :=
  { step with outcome := step.outcome.above lower }

namespace Machine

section Above

variable {env : Environment} {limit : Option Nat} {nextFresh : Nat} (lower : List Choice)

theorem select_above (env : Environment) (choices : List Choice) (bindings : Bindings)
    (rest : List Frame) (depth : Nat) (goal : Goal) :
    select env (choices ++ lower) bindings rest depth goal =
      ((select env choices bindings rest depth goal).1,
        (select env choices bindings rest depth goal).2.above lower) := by
  cases goal with
  | assign target value => rfl
  | fact goal =>
      rw [select, select]
      split <;> rfl

theorem advance_above (choices : List Choice) (bindings : Bindings) (frames : List Frame) :
    advance env nextFresh (choices ++ lower) bindings frames =
      (advance env nextFresh choices bindings frames).above lower := by
  match frames with
  | .goals (goal :: pending) depth :: rest =>
      rw [advance, advance, select_above]
      rfl
  | [] | .goals [] depth :: rest | .statements [] :: rest
  | .statements (.query _ :: _) :: _ | .statements (.clause _ :: _) :: _ | .project _ _ :: _ => rfl

/-- Choices below do not matter to a step while there is something above them. -/
theorem step_above {machine : Machine} (hmachine : machine ≠ ⟨none, []⟩) :
    (machine.above lower).step env limit nextFresh =
      (machine.step env limit nextFresh).above lower := by
  obtain ⟨current, choices⟩ := machine
  cases current with
  | some branch => exact advance_above lower choices branch.bindings branch.frames
  | none =>
      cases choices with
      | nil => exact absurd rfl hmachine
      | cons choice choices =>
          obtain ⟨goal, bindings, rest, depth, untried⟩ := choice
          cases untried <;> rfl

/-- Only a machine with nothing left is exhausted. -/
theorem eq_of_exhausted {machine : Machine}
    (houtcome : (machine.step env limit nextFresh).outcome = .exhausted) :
    machine = ⟨none, []⟩ := by
  obtain ⟨current, choices⟩ := machine
  cases current with
  | none =>
      cases choices with
      | nil => rfl
      | cons choice choices =>
          obtain ⟨goal, bindings, rest, depth, untried⟩ := choice
          cases untried <;> cases houtcome
  | some branch =>
      simp only [step] at houtcome
      rw [advance.eq_def] at houtcome
      split at houtcome <;> cases houtcome

end Above

end Machine

/-- A run after one step is part of a run before it. -/
theorem Search.exists_shows_of_step {limit : Option Nat} {world : World} {machine : Machine}
    {step : Step} (hstep : machine.step world.env limit world.nextFresh = step)
    (houtcome : step.outcome ≠ .exhausted) {observations : List Observation} {final : Search}
    (hrest : Shows limit ((world.after step).search step.outcome.machine) observations final) :
    ∃ shown, Shows limit (world.search machine) shown final := by
  subst hstep
  cases hkind : (machine.step world.env limit world.nextFresh).outcome with
  | running next =>
      rw [hkind] at hrest
      exact ⟨_, .running hkind hrest⟩
  | answer found next =>
      rw [hkind] at hrest
      exact ⟨_, .answer hkind hrest⟩
  | exhausted => exact absurd hkind houtcome

/-- A machine that comes to its end comes back to the choices below it, and no fresh
name is taken back on the way. -/
theorem Machine.Ends.exists_shows {limit : Option Nat} {machine : Machine}
    (hends : machine.Ends limit) (lower : List Choice) (world : World) :
    ∃ (observations : List Observation) (later : World),
      Search.Shows limit (world.search (machine.above lower)) observations
        (later.search ⟨none, lower⟩) ∧ world.nextFresh ≤ later.nextFresh := by
  induction hends generalizing world with
  | exhausted => exact ⟨[], world, .refl _, Nat.le_refl _⟩
  | @step machine _ ih =>
      by_cases hmachine : machine = ⟨none, []⟩
      · subst hmachine
        exact ⟨[], world, .refl _, Nat.le_refl _⟩
      · have hstep : (machine.above lower).step world.env limit world.nextFresh = _ :=
          step_above lower hmachine
        obtain ⟨observations, later, hshows, hlater⟩ := ih world.env world.nextFresh
          (world.after (machine.step world.env limit world.nextFresh))
        have hafter : ((machine.step world.env limit world.nextFresh).outcome.machine).above lower =
            ((machine.step world.env limit world.nextFresh).above lower).outcome.machine ∧
            ((machine.step world.env limit world.nextFresh).above lower).outcome ≠ .exhausted := by
          cases houtcome : (machine.step world.env limit world.nextFresh).outcome with
          | exhausted => exact absurd (eq_of_exhausted houtcome) hmachine
          | running next => simp [Step.above, houtcome, Outcome.above, Outcome.machine]
          | answer found next => simp [Step.above, houtcome, Outcome.above, Outcome.machine]
        obtain ⟨shown, hshown⟩ :=
          Search.exists_shows_of_step hstep hafter.2 (hafter.1 ▸ hshows)
        exact ⟨shown, later, hshown, Nat.le_trans machine.le_nextFresh_step hlater⟩

/-- Under a depth limit, the search comes past the clauses in front of others.  The
induction is on those in front. -/
theorem Choice.exists_shows_past (most : Nat) (choice : Choice) (earlier untried : List Clause)
    (choices : List Choice) (world : World) :
    ∃ (observations : List Observation) (later : World),
      Search.Shows (some most)
        (world.search ⟨none, { choice with untried := earlier ++ untried } :: choices⟩) observations
        (later.search ⟨none, { choice with untried } :: choices⟩) ∧
      world.nextFresh ≤ later.nextFresh := by
  induction earlier generalizing world with
  | nil => exact ⟨[], world, .refl _, Nat.le_refl _⟩
  | cons clause earlier ih =>
      let attempted := choice.attempt (some most) world.nextFresh clause
      let lower := { choice with untried := earlier ++ untried } :: choices
      let step : Step := ⟨[], attempted.1, .running ⟨attempted.2, lower⟩⟩
      have hstep : (Machine.mk none
          ({ choice with untried := clause :: earlier ++ untried } :: choices)).step world.env
            (some most) world.nextFresh = step := rfl
      obtain ⟨before, back, hback, hfresh⟩ :=
        (Machine.ends most ⟨attempted.2, []⟩).exists_shows lower (world.after step)
      obtain ⟨past, later, hpast, hlater⟩ := ih back
      obtain ⟨shown, hshown⟩ := Search.exists_shows_of_step hstep
        (fun heq => nomatch heq) (hback.trans hpast)
      have hattempt : world.nextFresh ≤ attempted.1 := choice.le_attempt _ _ clause
      exact ⟨shown, later, hshown, Nat.le_trans hattempt (Nat.le_trans hfresh hlater)⟩

/-- One substitution constrains known names no more than another: each assignment
that satisfies the other satisfies it after a change of values for other names. -/
structure Bindings.AddsNothing (known : Var → Prop) (bindings found : Bindings) : Prop where
  keeps : bindings.Keeps found
  fits : ∀ valuation : Valuation, valuation.Satisfies bindings →
    ∃ extended : Valuation, (∀ name, known name → extended name = valuation name) ∧
      extended.Satisfies found

section Copy

variable {bindings : Bindings} {fact : Fact} {fresh : Nat}

/-- The values that a copy of a copy of the grounded fact needs to be the fact
itself. -/
theorem exists_valuation_of_stored (hbindings : bindings.Within (Term.Over (Older fresh)))
    (hfact : fact.toTerm.Over (Older fresh)) {image : Var → Var}
    (himage : ∀ left ∈ (bindings.groundFact fact).occurrences,
      ∀ right ∈ (bindings.groundFact fact).occurrences, image left = image right → left = right)
    {valuation : Valuation} (hsatisfies : valuation.Satisfies bindings) :
    let stored := (bindings.groundFact fact).rename image
    let copy := stored.rename ((Clause.fact stored).renameApart freshStem fresh).2.image
    ∃ extended : Valuation, (∀ name, Older fresh name → extended name = valuation name) ∧
      extended.Satisfies bindings ∧ copy.toTerm.eval extended = fact.toTerm.eval extended := by
  intro stored copy
  obtain ⟨inner, hinner, _⟩ := exists_valuation_image himage valuation valuation
  obtain ⟨extended, hcopy, holder⟩ :=
    (Clause.fact stored).exists_valuation fresh inner valuation
  have hagrees : ∀ name, Older fresh name → Agrees valuation extended name :=
    fun name hname => (holder name hname).symm
  have hextended := hsatisfies.of_within
    (hbindings.imp fun _ hterm name hname => hagrees name (hterm name hname))
  refine ⟨extended, holder, hextended, ?_⟩
  calc copy.toTerm.eval extended
      = stored.toTerm.eval inner := by
        rw [Fact.toTerm_rename, Term.eval_rename]
        exact (Term.eval_eq_iff _ _ _).mpr hcopy
    _ = (bindings.groundFact fact).toTerm.eval valuation := by
        rw [Fact.toTerm_rename, Term.eval_rename]
        exact (Term.eval_eq_iff _ _ _).mpr hinner
    _ = fact.toTerm.eval valuation := hsatisfies.eval_groundFact fact
    _ = fact.toTerm.eval extended :=
        Term.eval_of_over fun name hname => hagrees name (hfact name hname)

/-- The copy unifies with the fact, and nothing is added for older names. -/
theorem exists_unifier_of_stored (hacyclic : bindings.Acyclic)
    (hbindings : bindings.Within (Term.Over (Older fresh)))
    (hfact : fact.toTerm.Over (Older fresh)) {image : Var → Var}
    (himage : ∀ left ∈ (bindings.groundFact fact).occurrences,
      ∀ right ∈ (bindings.groundFact fact).occurrences, image left = image right → left = right) :
    let stored := (bindings.groundFact fact).rename image
    let copy := stored.rename ((Clause.fact stored).renameApart freshStem fresh).2.image
    ∃ found, unifyFacts copy fact bindings = some found ∧
      bindings.AddsNothing (Older fresh) found := by
  intro stored copy
  obtain ⟨any, hany, _⟩ := hacyclic.exists_satisfies fun _ => .text ""
  obtain ⟨extended, _, hextended, hequal⟩ :=
    exists_valuation_of_stored hbindings hfact himage hany
  obtain ⟨found, hfound, _⟩ := unify_of_solved hacyclic hextended hequal
  refine ⟨found, hfound, (unify_extension hacyclic hfound).keeps, fun valuation hsatisfies => ?_⟩
  obtain ⟨extended, holder, hextended, hequal⟩ :=
    exists_valuation_of_stored hbindings hfact himage hsatisfies
  exact ⟨extended, holder,
    ((unify_extension hacyclic hfound).satisfies_iff extended).mpr ⟨hextended, hequal⟩⟩

end Copy

/-- The argument of a goal that asserts a fact: the fact, or its name alone if it has
no arguments. -/
def Fact.IsAssertedBy (fact : Fact) (added : Term) : Prop :=
  added = fact.toTerm ∨ fact.args = [] ∧ added = .atom fact.functor

/-- Asserting a fact always succeeds, and stores it with its complete values. -/
theorem Fact.IsAssertedBy.assertTerm_eq {fact : Fact} {added : Term}
    (hadded : fact.IsAssertedBy added) (env : Environment) (bindings : Bindings) :
    assertTerm env bindings added =
      ⟨[.stored (.fact (bindings.groundFact fact))], some bindings⟩ := by
  rcases hadded with rfl | ⟨hargs, rfl⟩
  · rfl
  · obtain ⟨functor, args⟩ := fact
    obtain rfl : args = [] := hargs
    rfl

theorem Bindings.signature_groundFact (bindings : Bindings) (fact : Fact) :
    (bindings.groundFact fact).signature = fact.signature := by
  simp [groundFact, Fact.subst, Fact.signature, Term.substAll_eq_map]

/-- Where an asserted fact is found: behind all that was stored before. -/
theorem lookup_asserted (env : Environment) (bindings : Bindings) (fact : Fact) :
    ∃ image : Var → Var,
      (∀ left ∈ (bindings.groundFact fact).occurrences,
        ∀ right ∈ (bindings.groundFact fact).occurrences, image left = image right →
          left = right) ∧
      (env.record (.stored (.fact (bindings.groundFact fact)))).theory.lookup fact.signature =
        env.theory.lookup fact.signature ++ [.fact ((bindings.groundFact fact).rename image)] := by
  let clause : Clause := .fact (bindings.groundFact fact)
  refine ⟨(clause.renameApart storeStem env.theory.nextVar).2.image,
    fun left hleft right hright => clause.image_injective storeStem _ hleft hright, ?_⟩
  have hsignature : clause.signature = fact.signature := bindings.signature_groundFact fact
  rw [Environment.record, Theory.lookup_insert, if_pos hsignature]
  rfl

/-- A fact whose copy is the last clause to be tried for it is found, after all that
the clauses in front of it lead to. -/
theorem exists_shows_found (most : Nat) {bindings : Bindings} (hacyclic : bindings.Acyclic)
    {fact : Fact} (hbuiltin : Builtin.ofFact? fact = none) {world : World}
    (hbindings : bindings.Within (Term.Over (Older world.nextFresh)))
    (hfact : fact.toTerm.Over (Older world.nextFresh)) {earlier : List Clause} {image : Var → Var}
    (himage : ∀ left ∈ (bindings.groundFact fact).occurrences,
      ∀ right ∈ (bindings.groundFact fact).occurrences, image left = image right → left = right)
    (hlookup : world.env.theory.lookup fact.signature =
      earlier ++ [.fact ((bindings.groundFact fact).rename image)])
    (pending : Query) (depth : Nat) (rest : List Frame) (choices : List Choice) :
    ∃ (observations : List Observation) (later : World) (found : Bindings),
      Search.Shows (some most)
        (world.search ⟨some ⟨bindings, .goals (.fact fact :: pending) depth :: rest⟩, choices⟩)
        observations
        (later.search ⟨some ⟨found, pushGoals pending depth rest⟩,
          ⟨fact, bindings, pushGoals pending depth rest, depth, []⟩ :: choices⟩) ∧
      bindings.AddsNothing (Older world.nextFresh) found := by
  let stored := (bindings.groundFact fact).rename image
  let choice : Choice := ⟨fact, bindings, pushGoals pending depth rest, depth, []⟩
  obtain ⟨before, back, hbefore, hfresh⟩ :=
    choice.exists_shows_past most earlier [.fact stored] choices world
  have holder : ∀ name, Older world.nextFresh name → Older back.nextFresh name :=
    fun _ hname => hname.mono hfresh
  obtain ⟨found, hfound, hadds⟩ := exists_unifier_of_stored hacyclic
    (hbindings.imp fun _ hterm => hterm.mono holder) (hfact.mono holder) himage
  let used := ((Clause.fact stored).renameApart freshStem back.nextFresh).2.used
  have hselect : (Machine.mk (some ⟨bindings, .goals (.fact fact :: pending) depth :: rest⟩)
      choices).step world.env (some most) world.nextFresh = ⟨[], world.nextFresh, .running
        ⟨none, { choice with untried := earlier ++ [.fact stored] } :: choices⟩⟩ := by
    simp only [Machine.step, Machine.advance, Machine.select, hbuiltin, hlookup]
    rfl
  have hattempt : (Machine.mk none ({ choice with untried := [.fact stored] } :: choices)).step
      back.env (some most) back.nextFresh = ⟨[], back.nextFresh + used, .running
        ⟨some ⟨found, pushGoals pending depth rest⟩, choice :: choices⟩⟩ := by
    simp only [Machine.step, Machine.retry, Choice.attempt_fact, choice]
    rw [hfound]
    rfl
  refine ⟨before ++ [], back.spend used, found, (Search.Shows.of_silent hselect hbefore).trans
    (.of_names used hattempt (.refl _)), hadds.keeps, fun valuation hsatisfies => ?_⟩
  obtain ⟨extended, hextended, hfits⟩ := hadds.fits valuation hsatisfies
  exact ⟨extended, fun name hname => hextended name (holder name hname), hfits⟩

/-- Resolved by itself, such a fact has an answer that adds nothing. -/
theorem exists_drains_found (most : Nat) {bindings : Bindings} {fact : Fact} {world : World}
    {known : Var → Prop} {observations : List Observation} {later : World} {found : Bindings}
    (hshows : Search.Shows (some most) (world.search (.ofQuery [.fact fact] bindings)) observations
      (later.search ⟨some ⟨found, []⟩, [⟨fact, bindings, [], 0, []⟩]⟩))
    (hadds : bindings.AddsNothing known found) :
    ∃ observations final found,
      Search.Drains (some most) (world.search (.ofQuery [.fact fact] bindings)) observations final ∧
      .answer found ∈ observations ∧ bindings.AddsNothing known found := by
  obtain ⟨rest, final, hrest, _⟩ :=
    (Machine.ends most ⟨none, [⟨fact, bindings, [], 0, []⟩]⟩).exists_shows [] later
  have hanswer : Search.Shows (some most)
      (later.search ⟨some ⟨found, []⟩, [⟨fact, bindings, [], 0, []⟩]⟩) (.answer found :: rest)
      (final.search ⟨none, []⟩) := by
    refine .answer rfl ?_
    rwa [← later.after_silent (.answer found ⟨none, [⟨fact, bindings, [], 0, []⟩]⟩)] at hrest
  exact ⟨_, _, found, (hshows.trans hanswer).drains, by simp, hadds⟩

/-- The states that a search comes to while others store clauses and take fresh names
from the same supply. -/
inductive Search.Visits (limit : Option Nat) (start : Search) : Search → Prop
  | refl : Visits limit start start
  | step {search : Search} (hearlier : Visits limit start search) :
      Visits limit start (search.advance limit)
  | shared {search : Search} (hearlier : Visits limit start search) {env : Environment}
      (statements : List Statement) (hstore : env.theory = search.env.theory.insertAll statements)
      {nextFresh : Nat} (hfresh : search.nextFresh ≤ nextFresh) :
      Visits limit start { search with env, nextFresh }

namespace Search.Visits

variable {limit : Option Nat} {start search : Search}

theorem reaches (hsearch : Visits limit start search) : Reaches limit start search := by
  induction hsearch with
  | refl => exact .refl
  | step _ ih => exact ih.step
  | @shared search _ env _ _ nextFresh _ ih => exact ih.shared env nextFresh

theorem clean (hsearch : Visits limit start search) (hstart : start.Clean) : search.Clean := by
  induction hsearch with
  | refl => exact hstart
  | step _ ih => exact ih.advance
  | shared _ statements hstore hfresh ih =>
      refine ⟨?_, ih.machine.mono fun _ hname => hname.mono hfresh⟩
      simp only [hstore]
      exact ih.store.insertAll statements

end Search.Visits

/-- What a search starts with: the goals of a query, or statements to resolve one
after another. -/
inductive Frame.IsFirst : Frame → Prop
  | goals (goals : Query) : IsFirst (.goals goals 0)
  | statements (statements : List Statement) : IsFirst (.statements statements)

/-- A search starts without fresh names, if neither its frame nor its substitution has
names that look like them. -/
theorem Machine.over_ofBranch {branch : Branch} {fresh : Nat}
    (hbranch : branch.Over fun name => ¬ LooksFresh name) :
    (Machine.ofBranch branch).Over (Issued fresh) := by
  refine ⟨fun other hother => ?_, fun clause hclause => nomatch hclause⟩
  obtain rfl := List.mem_singleton.mp (show other ∈ [branch] from hother)
  exact hbranch.mono fun _ hname hlooks => absurd hlooks hname

theorem Branch.intact_first {frame : Frame} (hfirst : frame.IsFirst) {start : Bindings}
    (hstart : start.Acyclic) : Branch.Intact start ⟨start, [frame]⟩ := by
  cases hfirst with
  | goals goals => exact ⟨List.forall_mem_singleton.mpr hstart, Bindings.Keeps.refl start⟩
  | statements statements =>
      exact ⟨List.forall_mem_singleton.mpr hstart, Bindings.Keeps.refl start⟩

/-- On the branch that a search has come to, the substitution is acyclic and all names
are older than the fresh ones to come. -/
theorem Search.Visits.current_known {limit : Option Nat} {program : List Statement}
    {env : Environment} (hstore : env.theory = Theory.ofStatements program) {nextFresh : Nat}
    {frame : Frame} (hfirst : frame.IsFirst) {start : Bindings} (hstart : start.Acyclic)
    (hframe : frame.Over fun name => ¬ LooksFresh name)
    (hentries : start.Within (Term.Over fun name => ¬ LooksFresh name)) {search : Search}
    (hsearch : Visits limit ⟨env, nextFresh, .ofBranch ⟨start, [frame]⟩, none⟩ search)
    {branch : Branch} (hcurrent : search.machine.current = some branch) :
    branch.bindings.Acyclic ∧ branch.Over (Older search.nextFresh) := by
  have hmem := Machine.mem_branches_of_current hcurrent
  have hclean : search.Clean := by
    have hnames : Branch.Over (fun name => ¬ LooksFresh name) ⟨start, [frame]⟩ :=
      ⟨hentries, List.forall_mem_singleton.mpr hframe⟩
    refine hsearch.clean ⟨?_, Machine.over_ofBranch hnames⟩
    simp only [hstore]
    exact Theory.numbered_ofStatements program
  have hintact : ∀ branch ∈ search.machine.branches, branch.Intact start := by
    refine hsearch.reaches.invariant (fun branch hbranch => ?_) fun _ _ _ _ _ hbranch hleads =>
      hleads.intact hbranch
    rw [List.mem_singleton.mp (show branch ∈ [⟨start, [frame]⟩] from hbranch)]
    exact Branch.intact_first hfirst hstart
  exact ⟨(hintact branch hmem).acyclic _ List.mem_cons_self,
    (hclean.machine.branches branch hmem).mono fun _ hname => hname.older⟩

/-- The names in a fact are those in the goal that asserts it. -/
theorem Fact.IsAssertedBy.over {fact : Fact} {added : Term} (hadded : fact.IsAssertedBy added)
    {names : Var → Prop} {more : Query} {depth : Nat}
    (hgoals : (Frame.goals (.fact ⟨"assert", [added]⟩ :: more) depth).Over names) :
    fact.toTerm.Over names := by
  have hterm : added.Over names :=
    (stable_over names).arg _ _ (over_goal hgoals) added List.mem_cons_self
  rcases hadded with rfl | ⟨hargs, rfl⟩
  · exact hterm
  · intro name hname
    rw [Fact.toTerm, hargs] at hname
    exact absurd hname List.not_mem_nil

/-- The step that asserts a fact. -/
theorem Search.advance_assert (limit : Option Nat) (search : Search) {fact : Fact} {added : Term}
    (hadded : fact.IsAssertedBy added) {bindings : Bindings} {more : Query} {depth : Nat}
    {rest : List Frame} (hcurrent : search.machine.current =
      some ⟨bindings, .goals (.fact ⟨"assert", [added]⟩ :: more) depth :: rest⟩) :
    let after := search.advance limit
    after.machine.current = some ⟨bindings, pushGoals more depth rest⟩ ∧
      after.nextFresh = search.nextFresh ∧
      after.env = search.env.record (.stored (.fact (bindings.groundFact fact))) := by
  have hstep : search.machine.step search.env limit search.nextFresh =
      ⟨[.stored (.fact (bindings.groundFact fact))], search.nextFresh,
        .running ⟨some ⟨bindings, pushGoals more depth rest⟩, search.machine.choices⟩⟩ := by
    simp only [Machine.step, hcurrent, Machine.advance, Machine.select, Builtin.ofFact?,
      Builtin.prove, hadded.assertTerm_eq, Option.map_some]
  intro after
  have hafter : after = _ := congrArg (fun step : Step =>
    search.after step step.outcome.machine) hstep
  rw [hafter]
  exact ⟨rfl, rfl, rfl⟩

/-- Once a goal `assert(F)` is proved, under whatever substitution a search has come to
and whatever was stored before, `F` is found: as the next goal on any branch, after
all that older clauses lead to, and as a goal by itself among its answers.  What is
found keeps all entries and constrains no name that was known before. -/
theorem asserted_fact_is_found (most : Nat) (program : List Statement) (env : Environment)
    (hstore : env.theory = Theory.ofStatements program) (nextFresh : Nat) (frame : Frame)
    (hfirst : frame.IsFirst) (start : Bindings) (hstart : start.Acyclic)
    (hframe : frame.Over fun name => ¬ LooksFresh name)
    (hentries : start.Within (Term.Over fun name => ¬ LooksFresh name)) (search : Search)
    (hsearch : Search.Visits (some most) ⟨env, nextFresh, .ofBranch ⟨start, [frame]⟩, none⟩ search)
    (fact : Fact) (hbuiltin : Builtin.ofFact? fact = none) (added : Term)
    (hadded : fact.IsAssertedBy added) (bindings : Bindings) (more : Query) (depth : Nat)
    (rest : List Frame)
    (hcurrent : search.machine.current =
      some ⟨bindings, .goals (.fact ⟨"assert", [added]⟩ :: more) depth :: rest⟩) :
    let after := search.advance (some most)
    let known := Older search.nextFresh
    bindings.Within (Term.Over known) ∧ fact.toTerm.Over known ∧
    after.machine.current = some ⟨bindings, pushGoals more depth rest⟩ ∧
    (∀ (pending : Query) (depth : Nat) (rest : List Frame) (choices : List Choice),
      ∃ (observations : List Observation) (later : World) (found : Bindings),
        Search.Shows (some most)
          (after.world.search
            ⟨some ⟨bindings, .goals (.fact fact :: pending) depth :: rest⟩, choices⟩)
          observations
          (later.search ⟨some ⟨found, pushGoals pending depth rest⟩,
            ⟨fact, bindings, pushGoals pending depth rest, depth, []⟩ :: choices⟩) ∧
        bindings.AddsNothing known found) ∧
    ∃ observations final found,
      Search.Drains (some most) (after.world.search (.ofQuery [.fact fact] bindings)) observations
        final ∧
      .answer found ∈ observations ∧ bindings.AddsNothing known found := by
  intro after known
  obtain ⟨hacyclic, hwithin, hframes⟩ :=
    hsearch.current_known hstore hfirst hstart hframe hentries hcurrent
  have hfact : fact.toTerm.Over known := hadded.over (List.forall_mem_cons.mp hframes).1
  obtain ⟨hnext, hfresh, henv⟩ := search.advance_assert (some most) hadded hcurrent
  obtain ⟨image, himage, hlookup⟩ := lookup_asserted search.env bindings fact
  have hstored : after.world.env.theory.lookup fact.signature =
      search.env.theory.lookup fact.signature ++
        [.fact ((bindings.groundFact fact).rename image)] := by
    rw [← hlookup, ← henv]
    rfl
  have hsame : after.world.nextFresh = search.nextFresh := hfresh
  have hfound := exists_shows_found most hacyclic hbuiltin (hsame ▸ hwithin) (hsame ▸ hfact)
    himage hstored
  rw [hsame] at hfound
  refine ⟨hwithin, hfact, hnext, hfound, ?_⟩
  obtain ⟨observations, later, found, hshows, hadds⟩ := hfound [] 0 [] []
  exact exists_drains_found most hshows hadds

/-- The program `p(a). p(Z) :- q(Z).` -/
def sharedProgram : List Statement :=
  [.clause (.fact ⟨"p", [.atom "a"]⟩),
    .clause (.rule ⟨"p", [.var "Z"]⟩ [.fact ⟨"q", [.var "Z"]⟩])]

/-- The query `?- assert(p(X)), p(X).` under `X = f(Y)` on this program, after another
search has stored `q(b)` and taken two fresh names: `p(X)` has an answer that leaves
`Y` open, behind the one from the rule. -/
theorem asserted_fact_stays_open :
    let env : Environment :=
      ⟨Theory.ofStatements sharedProgram, .fresh none, .empty⟩
    let start := Bindings.empty.insert "X" (.fact "f" [.var "Y"])
    let fact : Fact := ⟨"p", [.var "X"]⟩
    let goals : Query := [.fact ⟨"assert", [fact.toTerm]⟩, .fact fact]
    let stored := { env with theory := env.theory.insert (.fact ⟨"q", [.atom "b"]⟩) }
    let search : Search := ⟨stored, 2, .ofQuery goals start, none⟩
    start.Acyclic ∧ Search.Visits (some 3) ⟨env, 0, .ofQuery goals start, none⟩ search ∧
    ∃ observations final found,
      Search.Drains (some 3)
        ((search.advance (some 3)).world.search (.ofQuery [.fact fact] start)) observations final ∧
      .answer found ∈ observations ∧ start.AddsNothing (Older 2) found := by
  intro env start fact goals stored search
  have hacyclic : start.Acyclic := Bindings.acyclic_single (by decide)
  have hletter : ∀ name ∈ ["X", "Y"], ¬ LooksFresh name := by
    intro name hname
    refine not_looksFresh ?_
    rcases List.mem_pair.mp hname with rfl | rfl <;> decide
  have hgoals : ∀ name ∈ Query.occurrences goals, ¬ LooksFresh name := by
    intro name hname
    obtain rfl : name = "X" := by simpa [goals, fact, Query.occurrences, Goal.occurrences,
      Fact.occurrences, Fact.toTerm, Term.occurrencesAll, Term.occurrences] using hname
    exact hletter "X" (by simp)
  have hentries : start.Within (Term.Over fun name => ¬ LooksFresh name) :=
    (Bindings.within_empty _).insert (Term.over_var (hletter "X" (by simp)))
      (show (Term.fact "f" [.var "Y"]).Over _ from Term.over_var (hletter "Y" (by simp)))
  have hsearch : Search.Visits (some 3) ⟨env, 0, .ofQuery goals start, none⟩ search :=
    Search.Visits.refl.shared [.clause (.fact ⟨"q", [.atom "b"]⟩)] rfl (Nat.zero_le 2)
  exact ⟨hacyclic, hsearch, (asserted_fact_is_found 3 sharedProgram env rfl 0 (.goals goals 0)
    (.goals goals) start hacyclic hgoals hentries search hsearch fact rfl fact.toTerm (Or.inl rfl)
    start [.fact fact] 0 [] rfl).2.2.2.2⟩

end Horn
