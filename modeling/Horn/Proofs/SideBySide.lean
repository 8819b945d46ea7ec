/-
Two searches side by side.  They take the same goals up and try the same clauses
in the same order, under names of their own; where the second is allowed more
levels of rules, it tries some that the first leaves out.  What both find is the
same but for names.
-/
import Horn.Proofs.DepthFirst
import Horn.Proofs.MirroredGoals

namespace Horn

/-- A run that shows nothing but answers and leaves the store as it is. -/
def Run.Quiet (theory : Theory) (run : Run) : Prop :=
  ∀ world : World, world.env.theory = theory → ∃ answers : List Bindings,
    (run world).1 = answers.map .answer ∧ (run world).2.env.theory = theory ∧
      world.nextFresh ≤ (run world).2.nextFresh

/-- A solver that is quiet if what comes next is. -/
def Solver.Quiet (theory : Theory) (solver : Solver) : Prop :=
  ∀ goals bindings next, (∀ goal ∈ goals, goal.Quiet) →
    (∀ found, (next found).Quiet theory) → Run.Quiet theory (solver goals bindings next)

section Quiet

variable {theory : Theory} {expand : Option Solver} {next : Bindings → Run}

namespace Run

theorem quiet_stop (theory : Theory) : Quiet theory stop :=
  fun _ hstore => ⟨[], rfl, hstore, Nat.le_refl _⟩

theorem quiet_answer (theory : Theory) (found : Bindings) : Quiet theory (answer found) :=
  fun _ hstore => ⟨[found], rfl, hstore, Nat.le_refl _⟩

theorem Quiet.andThen {first second : Run} (hfirst : first.Quiet theory)
    (hsecond : second.Quiet theory) : (first.andThen second).Quiet theory := by
  intro world hstore
  obtain ⟨answers, hshown, hkept, hlater⟩ := hfirst world hstore
  obtain ⟨more, hmore, hleft, hlast⟩ := hsecond _ hkept
  refine ⟨answers ++ more, ?_, hleft, Nat.le_trans hlater hlast⟩
  rw [Run.andThen, List.map_append, ← hshown, ← hmore]

theorem quiet_followedBy (hnext : ∀ found, (next found).Quiet theory)
    (result : Option Bindings) : (followedBy next result).Quiet theory := by
  cases result with
  | none => exact quiet_stop theory
  | some found => exact hnext found

theorem after_nil (next : Run) : after [] next = next := by
  funext world
  rw [after, World.record_nil]
  rfl

/-- Handing out names first leaves a run quiet. -/
theorem Quiet.spend {run : Run} (hrun : run.Quiet theory) {world : World}
    (hstore : world.env.theory = theory) (used : Nat) :
    ∃ answers : List Bindings, (run (world.spend used)).1 = answers.map .answer ∧
      (run (world.spend used)).2.env.theory = theory ∧
      world.nextFresh ≤ (run (world.spend used)).2.nextFresh := by
  obtain ⟨answers, hshown, hkept, hlater⟩ := hrun (world.spend used) hstore
  exact ⟨answers, hshown, hkept, Nat.le_trans (Nat.le_add_right _ used) hlater⟩

end Run

theorem quiet_tryClause (hexpand : ∀ solver ∈ expand, Solver.Quiet theory solver)
    {clause : Clause} (hclause : clause.Quiet) (goal : Fact) (bindings : Bindings)
    (hnext : ∀ found, (next found).Quiet theory) :
    (tryClause expand goal bindings next clause).Quiet theory := by
  cases clause with
  | fact stored =>
      by_cases hground : stored.isGround = true
      · simp only [tryClause, hground, if_true]
        exact Run.quiet_followedBy hnext _
      · intro world hstore
        simp only [tryClause, hground]
        exact (Run.quiet_followedBy hnext _).spend hstore _
  | rule head body =>
      cases expand with
      | none => exact Run.quiet_stop theory
      | some solveBody =>
          intro world hstore
          simp only [tryClause]
          refine (Run.quiet_followedBy (fun initial => ?_) _).spend hstore _
          exact hexpand solveBody rfl _ _ _ (Query.quiet_rename hclause _)
            fun found => Run.quiet_followedBy hnext _

theorem quiet_tryAll (hexpand : ∀ solver ∈ expand, Solver.Quiet theory solver)
    {untried : List Clause} (huntried : ∀ clause ∈ untried, clause.Quiet) (goal : Fact)
    (bindings : Bindings) (hnext : ∀ found, (next found).Quiet theory) :
    (tryAll expand goal bindings next untried).Quiet theory := by
  induction untried with
  | nil => exact Run.quiet_stop theory
  | cons clause untried ih =>
      obtain ⟨hclause, huntried⟩ := List.forall_mem_cons.mp huntried
      exact (quiet_tryClause hexpand hclause goal bindings hnext).andThen (ih huntried)

theorem quiet_solveGoal (hstore : theory.All Clause.Quiet)
    (hexpand : ∀ solver ∈ expand, Solver.Quiet theory solver) {goal : Goal} (hgoal : goal.Quiet)
    (bindings : Bindings) (hnext : ∀ found, (next found).Quiet theory) :
    (solveGoal expand bindings next goal).Quiet theory := by
  cases goal with
  | assign target value => exact Run.quiet_followedBy hnext _
  | fact goal =>
      intro world hkept
      simp only [solveGoal]
      cases hbuiltin : Builtin.ofFact? goal with
      | some builtin =>
          simp only [hgoal.events hbuiltin world.env bindings, Run.after_nil]
          exact Run.quiet_followedBy hnext _ world hkept
      | none =>
          simp only [hkept]
          exact quiet_tryAll hexpand (hstore goal.signature) goal bindings hnext world hkept

/-- The induction is on the goals that are left. -/
theorem quiet_solveWith (hstore : theory.All Clause.Quiet)
    (hexpand : ∀ solver ∈ expand, Solver.Quiet theory solver) :
    Solver.Quiet theory (solveWith expand) := by
  intro goals bindings next hgoals hnext
  induction goals generalizing bindings with
  | nil => exact hnext bindings
  | cons goal pending ih =>
      obtain ⟨hgoal, hpending⟩ := List.forall_mem_cons.mp hgoals
      exact quiet_solveGoal hstore hexpand hgoal bindings fun found => ih found hpending

theorem quiet_solve (hstore : theory.All Clause.Quiet) (levels : Nat) :
    Solver.Quiet theory (solve levels) := by
  induction levels with
  | zero => exact quiet_solveWith hstore (by simp)
  | succ levels ih =>
      refine quiet_solveWith hstore fun solver hsolver => ?_
      rw [← Option.some.inj hsolver]
      exact ih

end Quiet

/-- How two runs over one store go together: in which worlds they may stand under
a naming, how a naming may grow on the way, and whether the second tries rules
that the first leaves out. -/
structure Pairing (moved : Var → Prop) (theory : Theory) where
  Abreast : Naming moved → World → World → Prop
  /-- The first is what the second may become. -/
  Grows : Naming moved → Naming moved → Prop
  Skips : Prop
  grows_refl : ∀ naming, Grows naming naming
  grows_trans : ∀ {largest larger naming}, Grows largest larger → Grows larger naming →
    Grows largest naming
  extends_of_grows : ∀ {larger naming}, Grows larger naming → larger.Extends naming
  store : ∀ {naming world world'}, Abreast naming world world' →
    world.env.theory = theory ∧ world'.env.theory = theory
  restrict : ∀ {larger naming world world'}, Grows larger naming → Abreast larger world world' →
    Abreast naming world world'
  /-- Both take a copy of a clause. -/
  copy : ∀ {naming world world'}, Abreast naming world world' → ∀ clause : Clause,
    ∃ larger, Grows larger naming ∧ larger.Copies clause world.nextFresh world'.nextFresh ∧
      Abreast larger (world.spend (clause.renameApart freshStem world.nextFresh).2.used)
        (world'.spend (clause.renameApart freshStem world'.nextFresh).2.used)
  /-- The second goes on alone. -/
  skip : ∀ {naming world world' later}, Skips → Abreast naming world world' →
    later.env.theory = theory → world'.nextFresh ≤ later.nextFresh → Abreast naming world later

namespace Pairing

variable {moved : Var → Prop} {theory : Theory} (pairing : Pairing moved theory)

/-- The same answer but for names. -/
def Kin (naming : Naming moved) (found found' : Bindings) : Prop :=
  ∃ larger, pairing.Grows larger naming ∧ Mirrors larger found found'

/-- The same answers in the same order, with others among those of the second only
if it may try more rules. -/
def Agree (naming : Naming moved) (answers answers' : List Bindings) : Prop :=
  ∃ kept : List Bindings, answers.Forall₂ (pairing.Kin naming) kept ∧ kept.Sublist answers' ∧
    (¬ pairing.Skips → kept = answers')

/-- What two runs show and the worlds that they leave. -/
def Joined (naming : Naming moved) (first second : List Observation × World) : Prop :=
  ∃ answers answers' : List Bindings,
    first.1 = answers.map .answer ∧ second.1 = answers'.map .answer ∧
      pairing.Agree naming answers answers' ∧ pairing.Abreast naming first.2 second.2

def Paired (naming : Naming moved) (run run' : Run) : Prop :=
  ∀ world world', pairing.Abreast naming world world' →
    pairing.Joined naming (run world) (run' world')

/-- What comes next goes on together from results that are the same but for
names. -/
structure Continues (naming : Naming moved) (next next' : Bindings → Run) : Prop where
  paired : ∀ larger, pairing.Grows larger naming → ∀ found found', Mirrors larger found found' →
    pairing.Paired larger (next found) (next' found')
  quiet : ∀ found', (next' found').Quiet theory

/-- Two solvers go on together from goals and substitutions that are the same but
for names. -/
def Solves (solver solver' : Solver) : Prop :=
  ∀ naming goals bindings bindings' next next', (∀ goal ∈ goals, naming.Takes goal) →
    Mirrors naming bindings bindings' → pairing.Continues naming next next' →
    pairing.Paired naming (solver goals bindings next)
      (solver' (Query.rename naming.toFun goals) bindings' next')

/-- How the two prove the bodies of rules. -/
inductive Expands : Option Solver → Option Solver → Prop
  | neither : Expands none none
  | second {solver' : Solver} (hskips : pairing.Skips) (hquiet : solver'.Quiet theory) :
      Expands none (some solver')
  | both {solver solver' : Solver} (hsolves : pairing.Solves solver solver') :
      Expands (some solver) (some solver')

variable {pairing} {naming larger : Naming moved}

theorem agree_nil (naming : Naming moved) : pairing.Agree naming [] [] :=
  ⟨[], .nil, .refl [], fun _ => rfl⟩

theorem agree_single {found found' : Bindings} (hmirrors : Mirrors naming found found') :
    pairing.Agree naming [found] [found'] :=
  ⟨[found'], .cons ⟨naming, pairing.grows_refl naming, hmirrors⟩ .nil, .refl _, fun _ => rfl⟩

theorem agree_skip (naming : Naming moved) (hskips : pairing.Skips) (answers' : List Bindings) :
    pairing.Agree naming [] answers' :=
  ⟨[], .nil, List.nil_sublist answers', fun hnone => absurd hskips hnone⟩

theorem Agree.append {answers answers' more more' : List Bindings}
    (hanswers : pairing.Agree naming answers answers') (hmore : pairing.Agree naming more more') :
    pairing.Agree naming (answers ++ more) (answers' ++ more') := by
  obtain ⟨kept, hkin, hsublist, hall⟩ := hanswers
  obtain ⟨further, hfurther, hsublist', hall'⟩ := hmore
  refine ⟨kept ++ further, List.rel_append hkin hfurther, hsublist.append hsublist',
    fun hnone => ?_⟩
  rw [hall hnone, hall' hnone]

theorem Agree.restrict {answers answers' : List Bindings}
    (hagree : pairing.Agree larger answers answers') (hgrows : pairing.Grows larger naming) :
    pairing.Agree naming answers answers' := by
  obtain ⟨kept, hkin, hkept⟩ := hagree
  refine ⟨kept, hkin.imp ?_, hkept⟩
  rintro found found' ⟨largest, hlargest, hmirrors⟩
  exact ⟨largest, pairing.grows_trans hlargest hgrows, hmirrors⟩

theorem Joined.restrict {first second : List Observation × World}
    (hjoined : pairing.Joined larger first second) (hgrows : pairing.Grows larger naming) :
    pairing.Joined naming first second := by
  obtain ⟨answers, answers', hshown, hshown', hagree, habreast⟩ := hjoined
  exact ⟨answers, answers', hshown, hshown', hagree.restrict hgrows,
    pairing.restrict hgrows habreast⟩

theorem paired_stop (naming : Naming moved) : pairing.Paired naming Run.stop Run.stop :=
  fun _ _ habreast => ⟨[], [], rfl, rfl, agree_nil naming, habreast⟩

theorem paired_answer {found found' : Bindings} (hmirrors : Mirrors naming found found') :
    pairing.Paired naming (Run.answer found) (Run.answer found') :=
  fun _ _ habreast => ⟨[found], [found'], rfl, rfl, agree_single hmirrors, habreast⟩

/-- A rule that the first leaves out. -/
theorem paired_skip (hskips : pairing.Skips) {run' : Run} (hquiet : run'.Quiet theory) :
    pairing.Paired naming Run.stop run' := by
  intro world world' habreast
  obtain ⟨answers', hshown, hkept, hlater⟩ := hquiet world' (pairing.store habreast).2
  exact ⟨[], answers', rfl, hshown, agree_skip naming hskips answers',
    pairing.skip hskips habreast hkept hlater⟩

theorem Paired.andThen {first first' second second' : Run}
    (hfirst : pairing.Paired naming first first')
    (hsecond : pairing.Paired naming second second') :
    pairing.Paired naming (first.andThen second) (first'.andThen second') := by
  intro world world' habreast
  obtain ⟨answers, answers', hshown, hshown', hagree, hbetween⟩ := hfirst world world' habreast
  obtain ⟨more, more', hmore, hmore', hlater, hafter⟩ := hsecond _ _ hbetween
  refine ⟨answers ++ more, answers' ++ more', ?_, ?_, hagree.append hlater, hafter⟩
  · rw [Run.andThen, List.map_append, ← hshown, ← hmore]
  · rw [Run.andThen, List.map_append, ← hshown', ← hmore']

section Continues

variable {next next' : Bindings → Run}

theorem paired_followedBy
    (hnext : ∀ found found', Mirrors naming found found' →
      pairing.Paired naming (next found) (next' found')) {result result' : Option Bindings}
    (hresult : Option.Rel (Mirrors naming) result result') :
    pairing.Paired naming (Run.followedBy next result) (Run.followedBy next' result') := by
  cases hresult with
  | some hmirrors => exact hnext _ _ hmirrors
  | none => exact paired_stop naming

variable (hnext : pairing.Continues naming next next')
include hnext

theorem Continues.grow (hgrows : pairing.Grows larger naming) :
    pairing.Continues larger next next' where
  paired largest hlargest := hnext.paired largest (pairing.grows_trans hlargest hgrows)
  quiet := hnext.quiet

theorem Continues.followedBy {result result' : Option Bindings}
    (hresult : Option.Rel (Mirrors naming) result result') :
    pairing.Paired naming (Run.followedBy next result) (Run.followedBy next' result') :=
  paired_followedBy (hnext.paired naming (pairing.grows_refl naming)) hresult

/-- What comes after the body of a rule: its values are carried back. -/
theorem Continues.project {left right : Bindings} (hmirrors : Mirrors naming left right)
    {goal : Fact} (hgoal : naming.CoversFact goal) :
    pairing.Continues naming
      (fun found => Run.followedBy next (Horn.project found goal.variables left))
      fun found => Run.followedBy next'
        (Horn.project found (goal.rename naming.toFun).variables right) where
  paired larger hgrows found found' hfound := by
    have hextends := pairing.extends_of_grows hgrows
    have hwanted : ∀ name ∈ goal.variables, name ∈ naming.source :=
      fun name hname => hgoal.names name (Fact.mem_variables.mp hname)
    have hsame : (goal.rename naming.toFun).variables = goal.variables.map larger.toFun := by
      rw [hgoal.variables_rename]
      exact List.map_congr_left fun name hname => (hextends.agrees name (hwanted name hname)).symm
    rw [hsame]
    exact (hnext.grow hgrows).followedBy (hfound.project
      (fun name hname => hextends.source (hwanted name hname)) (hmirrors.extend hextends))
  quiet found' := Run.quiet_followedBy hnext.quiet _

end Continues

section Search

variable {expand expand' : Option Solver} {left right : Bindings} {next next' : Bindings → Run}

theorem paired_tryClause (hexpand : pairing.Expands expand expand') {clause : Clause}
    (hquiet : clause.Quiet) (hclear : clause.Clear moved) {goal : Fact}
    (hgoal : naming.CoversFact goal) (hmirrors : Mirrors naming left right)
    (hnext : pairing.Continues naming next next') :
    pairing.Paired naming (tryClause expand goal left next clause)
      (tryClause expand' (goal.rename naming.toFun) right next' clause) := by
  cases clause with
  | fact stored =>
      -- a ground fact is tried as it is stored, so neither side spends a name on it
      by_cases hground : stored.isGround = true
      · have hstored : naming.CoversFact stored := Fact.Clear.covers hclear fun name hname =>
          absurd hname (by simp [List.isEmpty_iff.mp hground])
        have hunified := hmirrors.unifyFacts hstored hgoal
        rw [Fact.rename_of_isGround hground] at hunified
        simp only [tryClause, hground, if_true]
        exact hnext.followedBy hunified
      · intro world world' habreast
        obtain ⟨larger, hgrows, hcopies, hspent⟩ := pairing.copy habreast (.fact stored)
        have hextends := pairing.extends_of_grows hgrows
        have hunified := (hmirrors.extend hextends).unify_copies hcopies hclear
          (fun _ hname => hname) (hgoal.extend hextends)
        rw [hgoal.rename_extend hextends] at hunified
        simp only [tryClause, hground]
        exact ((hnext.grow hgrows).followedBy hunified _ _ hspent).restrict hgrows
  | rule head body =>
      cases hexpand with
      | neither => exact paired_stop naming
      | second hskips hsolver =>
          refine paired_skip hskips ?_
          refine quiet_tryClause (fun solver hsome => ?_) hquiet _ _ hnext.quiet
          rwa [← Option.some.inj hsome]
      | both hsolves =>
          intro world world' habreast
          obtain ⟨larger, hgrows, hcopies, hspent⟩ := pairing.copy habreast (.rule head body)
          have hextends := pairing.extends_of_grows hgrows
          have hgrown := hmirrors.extend hextends
          have hgrounded := hmirrors.covers_groundFact hgoal
          have hunified := (mirrors_empty larger).unify_copies hcopies hclear.1
            (fun _ hname => List.mem_append_left _ hname) (hgrounded.extend hextends)
          simp only [tryClause]
          rw [hmirrors.groundFact hgoal, ← hgrounded.rename_extend hextends, ← hcopies.rename_body]
          have hback := (hnext.grow hgrows).project hgrown (hgrounded.extend hextends)
          have hbody := hcopies.takes_body hquiet hclear.2
          exact (paired_followedBy (fun initial initial' hinitial =>
            hsolves _ _ _ _ _ _ hbody hinitial hback) hunified _ _ hspent).restrict hgrows

theorem paired_tryAll (hexpand : pairing.Expands expand expand') {untried : List Clause}
    (huntried : ∀ clause ∈ untried, clause.Quiet ∧ clause.Clear moved) {goal : Fact}
    (hgoal : naming.CoversFact goal) (hmirrors : Mirrors naming left right)
    (hnext : pairing.Continues naming next next') :
    pairing.Paired naming (tryAll expand goal left next untried)
      (tryAll expand' (goal.rename naming.toFun) right next' untried) := by
  induction untried with
  | nil => exact paired_stop naming
  | cons clause untried ih =>
      obtain ⟨⟨hquiet, hclear⟩, huntried⟩ := List.forall_mem_cons.mp huntried
      exact (paired_tryClause hexpand hquiet hclear hgoal hmirrors hnext).andThen (ih huntried)

variable (hstore : theory.All fun clause => clause.Quiet ∧ clause.Clear moved)
include hstore

theorem paired_solveGoal (hexpand : pairing.Expands expand expand') {goal : Goal}
    (htakes : naming.Takes goal) (hmirrors : Mirrors naming left right)
    (hnext : pairing.Continues naming next next') :
    pairing.Paired naming (solveGoal expand left next goal)
      (solveGoal expand' right next' (goal.rename naming.toFun)) := by
  cases goal with
  | assign target value =>
      obtain ⟨htarget, hvalue⟩ := List.forall_mem_cons.mp htakes.names
      exact hnext.followedBy (hmirrors.assignValue htarget hvalue)
  | fact goal =>
      intro world world' habreast
      simp only [Goal.rename, solveGoal, Builtin.ofFact?_rename, Fact.signature_rename]
      cases hbuiltin : Builtin.ofFact? goal with
      | some builtin =>
          have hrenamed : Builtin.ofFact? (goal.rename naming.toFun) =
              some (builtin.rename naming.toFun) := by
            rw [Builtin.ofFact?_rename, hbuiltin]
            rfl
          have hquiet : (Goal.fact (goal.rename naming.toFun)).Quiet :=
            htakes.quiet.rename naming.toFun
          simp only [Option.map_some, htakes.quiet.events hbuiltin world.env left,
            hquiet.events hrenamed world'.env right, Run.after_nil]
          exact hnext.followedBy (hmirrors.prove htakes hbuiltin world.env world'.env) _ _ habreast
      | none =>
          obtain ⟨hkept, hkept'⟩ := pairing.store habreast
          simp only [Option.map_none, hkept, hkept']
          exact paired_tryAll hexpand (hstore goal.signature) htakes.covers hmirrors hnext _ _
            habreast

/-- The induction is on the goals that are left. -/
theorem solves_solveWith (hexpand : pairing.Expands expand expand')
    (hquiet : ∀ solver ∈ expand', Solver.Quiet theory solver) :
    pairing.Solves (solveWith expand) (solveWith expand') := by
  intro naming goals bindings bindings' next next' hgoals hmirrors hnext
  induction goals generalizing naming bindings bindings' with
  | nil => exact hnext.paired naming (pairing.grows_refl naming) bindings bindings' hmirrors
  | cons goal pending ih =>
      obtain ⟨hgoal, hpending⟩ := List.forall_mem_cons.mp hgoals
      refine paired_solveGoal hstore hexpand hgoal hmirrors
        ⟨fun larger hgrows found found' hfound => ?_, fun found' => ?_⟩
      · have hextends := pairing.extends_of_grows hgrows
        have htaken : ∀ goal ∈ pending, larger.Takes goal :=
          fun goal hgoal => (hpending goal hgoal).extend hextends
        have hsolved := ih larger found found' htaken hfound (hnext.grow hgrows)
        rwa [Query.rename_extend hpending hextends] at hsolved
      · have hstore' : theory.All Clause.Quiet :=
          fun signature clause hclause => (hstore signature clause hclause).1
        exact quiet_solveWith hstore' hquiet _ _ _
          (Query.quiet_rename (fun goal hgoal => (hpending goal hgoal).quiet) _) hnext.quiet

/-- The second may have more levels of rules if it may try more rules. -/
theorem solves_solve {levels levels' : Nat}
    (hlevels : levels = levels' ∨ pairing.Skips ∧ levels ≤ levels') :
    pairing.Solves (solve levels) (solve levels') := by
  have hstore' : theory.All Clause.Quiet :=
    fun signature clause hclause => (hstore signature clause hclause).1
  have hquiet : ∀ levels, ∀ solver ∈ some (solve levels), Solver.Quiet theory solver := by
    intro levels solver hsolver
    rw [← Option.some.inj hsolver]
    exact quiet_solve hstore' levels
  induction levels generalizing levels' with
  | zero =>
      cases levels' with
      | zero => exact solves_solveWith hstore .neither (by simp)
      | succ levels' =>
          have hskips : pairing.Skips := by
            rcases hlevels with heq | ⟨hskips, _⟩
            · cases heq
            · exact hskips
          exact solves_solveWith hstore (.second hskips (quiet_solve hstore' levels'))
            (hquiet levels')
  | succ levels ih =>
      cases levels' with
      | zero =>
          rcases hlevels with heq | ⟨_, hle⟩
          · cases heq
          · exact absurd hle (Nat.not_succ_le_zero levels)
      | succ levels' =>
          have hbelow : levels = levels' ∨ pairing.Skips ∧ levels ≤ levels' :=
            hlevels.imp Nat.succ.inj (And.imp_right Nat.le_of_succ_le_succ)
          exact solves_solveWith hstore (.both (ih hbelow)) (hquiet levels')

theorem paired_runQuery {levels levels' : Nat}
    (hlevels : levels = levels' ∨ pairing.Skips ∧ levels ≤ levels') {goals : Query}
    (hgoals : ∀ goal ∈ goals, naming.Takes goal) :
    pairing.Paired naming (runQuery levels goals .empty)
      (runQuery levels' (Query.rename naming.toFun goals) .empty) :=
  solves_solve hstore hlevels naming goals .empty .empty _ _ hgoals (mirrors_empty naming)
    ⟨fun _ _ _ _ hfound => paired_answer hfound, Run.quiet_answer theory⟩

end Search

end Pairing

end Horn
