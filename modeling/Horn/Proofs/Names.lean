/-
The names in a machine.  A search takes its names from the query, from the
clauses that are stored and from its own supply, and never makes up another; so
the numbers of its fresh names stay below the next one to be handed out.
-/
import Horn.Proofs.Reachable
import Horn.Proofs.Renamed

namespace Horn

section Copies

variable (choice : Choice) (limit : Option Nat) (nextFresh : Nat)

/-- A fact without variables is its own copy, and takes no names. -/
theorem Choice.attempt_fact (stored : Fact) :
    let copy := ((Clause.fact stored).renameApart freshStem nextFresh).2
    choice.attempt limit nextFresh (.fact stored) = (nextFresh + copy.used,
      (unifyFacts (stored.rename copy.image) choice.goal choice.bindings).map
        (⟨·, choice.rest⟩)) := by
  intro copy
  rw [attempt]
  split
  · next hground =>
      have hnone : stored.occurrences = [] := List.isEmpty_iff.mp hground
      have hused : copy.used = 0 := by
        rw [Renaming.used, Clause.seen_renameApart, Clause.occurrences, hnone]
        rfl
      rw [hused, Fact.rename_of_isGround hground, Nat.add_zero]
  · rfl

theorem Choice.attempt_rule {choice : Choice} {limit : Option Nat}
    (hlimit : belowLimit limit choice.depth = true) (head : Fact) (body : Query) :
    let copy := ((Clause.rule head body).renameApart freshStem nextFresh).2
    let grounded := choice.bindings.groundFact choice.goal
    choice.attempt limit nextFresh (.rule head body) = (nextFresh + copy.used,
      (unifyFacts (head.rename copy.image) grounded .empty).map fun initial =>
        ⟨initial, .goals (Query.rename copy.image body) (choice.depth + 1) ::
          .project choice.bindings grounded.variables :: choice.rest⟩) := by
  intro copy grounded
  rw [attempt, if_pos hlimit]

theorem Choice.attempt_rule_of_limit {choice : Choice} {limit : Option Nat}
    (hlimit : belowLimit limit choice.depth = false) (head : Fact) (body : Query) :
    choice.attempt limit nextFresh (.rule head body) = (nextFresh, none) := by
  rw [attempt, if_neg (by simp [hlimit])]

/-- The names of a copy are the next ones of their supply. -/
theorem Clause.image_lt (clause : Clause) (stem : String) {name : Var}
    (hname : name ∈ clause.occurrences) :
    let copy := (clause.renameApart stem nextFresh).2
    ∃ number, nextFresh ≤ number ∧ number < nextFresh + copy.used ∧
      copy.image name = stem ++ toString number := by
  intro copy
  obtain ⟨place, hplace, himage⟩ := clause.image_renameApart stem nextFresh hname
  obtain ⟨hlt, _⟩ := List.getElem?_eq_some_iff.mp hplace
  exact ⟨nextFresh + place, Nat.le_add_right _ _, Nat.add_lt_add_left hlt nextFresh, himage⟩

end Copies

/-- All variables of a term are among some names. -/
def Term.Over (names : Var → Prop) (term : Term) : Prop :=
  ∀ name ∈ term.occurrences, names name

def Frame.Over (names : Var → Prop) : Frame → Prop
  | .goals pending _ => ∀ name ∈ Query.occurrences pending, names name
  | .statements pending => ∀ statement ∈ pending, ∀ name ∈ statement.occurrences, names name
  | .project caller wanted =>
      caller.Within (Term.Over names) ∧ ∀ name ∈ wanted, names name

structure Branch.Over (names : Var → Prop) (branch : Branch) : Prop where
  bindings : branch.bindings.Within (Term.Over names)
  frames : ∀ frame ∈ branch.frames, frame.Over names

/-- The clauses that are still to be tried for some choice. -/
def Machine.untried (machine : Machine) : List Clause :=
  machine.choices.flatMap Choice.untried

/-- All variables anywhere in a machine are among some names: in substitutions,
in goals, in what callers wait for and in clauses to be tried. -/
structure Machine.Over (names : Var → Prop) (machine : Machine) : Prop where
  branches : ∀ branch ∈ machine.branches, branch.Over names
  untried : ∀ clause ∈ machine.untried, ∀ name ∈ clause.occurrences, names name

/-- All variables in a store are among some names. -/
def Theory.Over (names : Var → Prop) (theory : Theory) : Prop :=
  theory.All fun clause => ∀ name ∈ clause.occurrences, names name

section Over

variable {names : Var → Prop}

theorem stable_over (names : Var → Prop) : Stable (Term.Over names) where
  arg _ _ hfact arg harg name hname :=
    hfact name (Term.mem_occurrences_fact.mpr ⟨arg, harg, hname⟩)
  subst _ himage name hname := by
    obtain ⟨source, hsource, hname⟩ := Term.mem_occurrences_subst.mp hname
    exact himage source hsource name hname

theorem Term.over_var {name : Var} (hname : names name) : (Term.var name).Over names := by
  intro other hother
  rw [Term.mem_occurrences_var.mp hother]
  exact hname

theorem Term.Over.mono {larger : Var → Prop} (hlarger : ∀ name, names name → larger name)
    {term : Term} (hterm : term.Over names) : term.Over larger :=
  fun name hname => hlarger name (hterm name hname)

theorem Frame.Over.mono {larger : Var → Prop} (hlarger : ∀ name, names name → larger name)
    {frame : Frame} (hframe : frame.Over names) : frame.Over larger := by
  cases frame with
  | goals pending depth => exact fun name hname => hlarger name (hframe name hname)
  | statements pending =>
      exact fun statement hstatement name hname =>
        hlarger name (hframe statement hstatement name hname)
  | project caller wanted =>
      exact ⟨hframe.1.imp fun _ hterm => hterm.mono hlarger,
        fun name hname => hlarger name (hframe.2 name hname)⟩

theorem Branch.Over.mono {larger : Var → Prop} (hlarger : ∀ name, names name → larger name)
    {branch : Branch} (hbranch : branch.Over names) : branch.Over larger where
  bindings := hbranch.bindings.imp fun _ hterm => hterm.mono hlarger
  frames frame hframe := (hbranch.frames frame hframe).mono hlarger

theorem Machine.Over.mono {larger : Var → Prop} (hlarger : ∀ name, names name → larger name)
    {machine : Machine} (hmachine : machine.Over names) : machine.Over larger where
  branches branch hbranch := (hmachine.branches branch hbranch).mono hlarger
  untried clause hclause name hname := hlarger name (hmachine.untried clause hclause name hname)

theorem over_pushGoals {goal : Goal} {pending : Query} {depth : Nat} {rest : List Frame}
    (hgoals : (Frame.goals (goal :: pending) depth).Over names)
    (hrest : ∀ frame ∈ rest, frame.Over names) :
    ∀ frame ∈ pushGoals pending depth rest, frame.Over names := by
  cases pending with
  | nil => exact hrest
  | cons next pending =>
      refine List.forall_mem_cons.mpr ⟨fun name hname => ?_, hrest⟩
      exact hgoals name (List.mem_append_right _ hname)

/-- A goal that comes first, as a term. -/
theorem over_goal {goal : Fact} {pending : Query} {depth : Nat}
    (hgoals : (Frame.goals (.fact goal :: pending) depth).Over names) :
    goal.toTerm.Over names :=
  fun name hname => hgoals name (List.mem_append_left _ hname)

theorem Builtin.over_unify {goal : Fact} {left right : Term}
    (hbuiltin : Builtin.ofFact? goal = some (.unify left right))
    (hgoal : goal.toTerm.Over names) : left.Over names ∧ right.Over names := by
  obtain ⟨hleft, hright⟩ := Builtin.args_unify hbuiltin
  exact ⟨(stable_over names).arg _ _ hgoal left hleft,
    (stable_over names).arg _ _ hgoal right hright⟩

/-- What a goal of the engine finds has the names of the goal and of the
substitution it was proved under. -/
theorem Builtin.over_prove {builtin : Builtin} {goal : Fact} {env : Environment}
    {bindings found : Bindings} (hbuiltin : Builtin.ofFact? goal = some builtin)
    (hgoal : goal.toTerm.Over names) (hbindings : bindings.Within (Term.Over names))
    (hproved : (builtin.prove env bindings).result = some found) :
    found.Within (Term.Over names) := by
  rcases Builtin.eq_or_of_prove hproved with ⟨left, right, rfl, hunified⟩ | rfl
  · obtain ⟨hleft, hright⟩ := Builtin.over_unify hbuiltin hgoal
    exact unify_within (stable_over names).arg hleft hright hbindings hunified
  · exact hbindings

theorem over_assignValue {bindings found : Bindings} {target : Var} {value : Expr}
    (htarget : names target) (hbindings : bindings.Within (Term.Over names))
    (hassigned : assignValue bindings target value = some found) :
    found.Within (Term.Over names) := by
  obtain ⟨number, hbind⟩ := bind?_of_assignValue hassigned
  have hnumber : (Term.num number).Over names := by simp [Term.Over, Term.occurrences]
  exact hbindings.bind? (Term.over_var htarget) hnumber hbind

/-- The names in a copy of a clause. -/
theorem Term.over_rename {clause : Clause} {image : Var → Var} {term : Term}
    (himage : ∀ name ∈ clause.occurrences, names (image name))
    (hterm : term.occurrences ⊆ clause.occurrences) : (term.rename image).Over names := by
  intro name hname
  obtain ⟨source, hsource, rfl⟩ := Term.mem_occurrences_rename.mp hname
  exact himage source (hterm hsource)

/-- A clause that is tried brings in the names of its copy. -/
theorem Choice.over_attempt {choice : Choice} {clause : Clause} {limit : Option Nat}
    {nextFresh later : Nat} {next : Branch}
    (hattempt : choice.attempt limit nextFresh clause = (later, some next))
    (hfresh : ∀ number, nextFresh ≤ number → number < later →
      names (freshStem ++ toString number))
    (hchoice : choice.branch.Over names) : next.Over names := by
  obtain ⟨goal, bindings, rest, depth, untried⟩ := choice
  obtain ⟨hbindings, hframes⟩ := hchoice
  obtain ⟨hgoals, hrest⟩ := List.forall_mem_cons.mp hframes
  have himage : ∀ name ∈ clause.occurrences,
      nextFresh + (clause.renameApart freshStem nextFresh).2.used = later →
      names ((clause.renameApart freshStem nextFresh).2.image name) := by
    rintro name hname rfl
    obtain ⟨number, hle, hlt, heq⟩ := clause.image_lt nextFresh freshStem hname
    exact heq ▸ hfresh number hle hlt
  cases clause with
  | fact stored =>
      rw [Choice.attempt_fact, Prod.mk.injEq, Option.map_eq_some_iff] at hattempt
      obtain ⟨hlater, found, hfound, rfl⟩ := hattempt
      refine ⟨unify_within (stable_over names).arg ?_ (over_goal hgoals) hbindings hfound, hrest⟩
      rw [Fact.toTerm_rename]
      exact Term.over_rename (fun name hname => himage name hname hlater) fun _ hname => hname
  | rule head body =>
      cases hlimit : belowLimit limit depth with
      | false =>
          rw [Choice.attempt_rule_of_limit nextFresh hlimit] at hattempt
          cases hattempt
      | true =>
          rw [Choice.attempt_rule nextFresh hlimit, Prod.mk.injEq,
            Option.map_eq_some_iff] at hattempt
          obtain ⟨hlater, initial, hinitial, rfl⟩ := hattempt
          have hgrounded : (bindings.groundFact goal).toTerm.Over names := by
            rw [Bindings.groundFact, Fact.toTerm_subst]
            exact hbindings.ground (stable_over names) (over_goal hgoals)
          refine ⟨unify_within (stable_over names).arg ?_ hgrounded
            (Bindings.within_empty _) hinitial, List.forall_mem_cons.mpr ⟨?_,
            List.forall_mem_cons.mpr ⟨⟨hbindings, fun name hname => ?_⟩, hrest⟩⟩⟩
          · rw [Fact.toTerm_rename]
            exact Term.over_rename (fun name hname => himage name hname hlater)
              fun _ hname => List.mem_append_left _ hname
          · intro name hname
            rw [Query.occurrences_rename] at hname
            obtain ⟨source, hsource, rfl⟩ := List.mem_map.mp hname
            exact himage source (List.mem_append_right _ hsource) hlater
          · -- The caller waits for variables of the goal as it was grounded.
            exact hgrounded name (Fact.mem_variables.mp hname)

/-- One step of a branch brings in nothing but the names of a copy. -/
theorem Branch.Leads.over {env : Environment} {limit : Option Nat} {nextFresh later : Nat}
    {branch next : Branch} (hleads : Branch.Leads env limit nextFresh later branch next)
    (hfresh : ∀ number, nextFresh ≤ number → number < later →
      names (freshStem ++ toString number))
    (hbranch : branch.Over names) : next.Over names := by
  obtain ⟨hbindings, hframes⟩ := hbranch
  cases hleads with
  | done bindings depth rest => exact ⟨hbindings, (List.forall_mem_cons.mp hframes).2⟩
  | assign hassigned =>
      obtain ⟨hgoals, hrest⟩ := List.forall_mem_cons.mp hframes
      have htarget := hgoals _ (List.mem_append_left _ List.mem_cons_self)
      exact ⟨over_assignValue htarget hbindings hassigned, over_pushGoals hgoals hrest⟩
  | builtin hbuiltin hproved =>
      obtain ⟨hgoals, hrest⟩ := List.forall_mem_cons.mp hframes
      exact ⟨Builtin.over_prove hbuiltin (over_goal hgoals) hbindings hproved,
        over_pushGoals hgoals hrest⟩
  | select _ bindings pending depth rest =>
      obtain ⟨hgoals, hrest⟩ := List.forall_mem_cons.mp hframes
      refine ⟨hbindings, List.forall_mem_cons.mpr
        ⟨fun name hname => ?_, over_pushGoals hgoals hrest⟩⟩
      refine over_goal hgoals name ?_
      rwa [Query.occurrences, List.flatMap_singleton] at hname
  | clause hattempt => exact Choice.over_attempt hattempt hfresh ⟨hbindings, hframes⟩
  | finished bindings rest => exact ⟨hbindings, (List.forall_mem_cons.mp hframes).2⟩
  | query bindings goals pending rest =>
      obtain ⟨hstatements, hrest⟩ := List.forall_mem_cons.mp hframes
      obtain ⟨hgoals, hpending⟩ := List.forall_mem_cons.mp hstatements
      exact ⟨hbindings, List.forall_mem_cons.mpr
        ⟨hgoals, List.forall_mem_cons.mpr ⟨hpending, hrest⟩⟩⟩
  | project hafter =>
      obtain ⟨⟨hcaller, hwanted⟩, hrest⟩ := List.forall_mem_cons.mp hframes
      exact ⟨hbindings.project (stable_over names) hcaller
        (fun name hname => Term.over_var (hwanted name hname)) hafter, hrest⟩

section Steps

variable {env : Environment} {limit : Option Nat} {nextFresh : Nat}

theorem Choice.le_attempt (choice : Choice) (limit : Option Nat) (nextFresh : Nat)
    (clause : Clause) : nextFresh ≤ (choice.attempt limit nextFresh clause).1 := by
  cases clause with
  | fact stored =>
      rw [attempt_fact]
      exact Nat.le_add_right _ _
  | rule head body =>
      cases hlimit : belowLimit limit choice.depth with
      | false =>
          rw [attempt_rule_of_limit nextFresh hlimit]
      | true =>
          rw [attempt_rule nextFresh hlimit]
          exact Nat.le_add_right _ _

/-- The supply of fresh names only moves on. -/
theorem Machine.le_nextFresh_step (machine : Machine) :
    nextFresh ≤ (machine.step env limit nextFresh).nextFresh := by
  obtain ⟨current, choices⟩ := machine
  cases current with
  | none =>
      cases choices with
      | nil => exact Nat.le_refl _
      | cons choice choices =>
          obtain ⟨goal, bindings, rest, depth, untried⟩ := choice
          cases untried with
          | nil => exact Nat.le_refl _
          | cons clause untried => exact Choice.le_attempt _ limit nextFresh clause
  | some branch =>
      have hsame : (advance env nextFresh choices branch.bindings branch.frames).nextFresh =
          nextFresh := by
        rw [advance.eq_def]
        split <;> rfl
      exact Nat.le_of_eq hsame.symm

/-- Clauses to be tried are taken from the store when a goal is selected. -/
theorem Machine.mem_untried_step {machine : Machine} {clause : Clause}
    (hclause : clause ∈ (machine.step env limit nextFresh).outcome.machine.untried) :
    clause ∈ machine.untried ∨ ∃ signature, clause ∈ env.theory.lookup signature := by
  obtain ⟨current, choices⟩ := machine
  cases current with
  | none =>
      cases choices with
      | nil => exact Or.inl hclause
      | cons choice choices =>
          obtain ⟨goal, bindings, rest, depth, untried⟩ := choice
          cases untried with
          | nil => exact Or.inl hclause
          | cons clause untried => exact Or.inl (List.mem_cons_of_mem _ hclause)
  | some branch =>
      obtain ⟨bindings, frames⟩ := branch
      simp only [Machine.step] at hclause
      rw [advance.eq_def] at hclause
      split at hclause
      case h_3 goal pending depth rest =>
        rw [Outcome.machine] at hclause
        cases goal with
        | assign target value => exact Or.inl hclause
        | fact goal =>
            rw [select] at hclause
            split at hclause
            · exact Or.inl hclause
            · rcases List.mem_append.mp hclause with hclause | hclause
              · exact Or.inr ⟨goal.signature, hclause⟩
              · exact Or.inl hclause
      all_goals exact Or.inl hclause

/-- A step brings in nothing but names of the store and of the supply. -/
theorem Machine.Over.step {machine : Machine} (hmachine : machine.Over names)
    (hstore : env.theory.Over names)
    (hfresh : ∀ number, nextFresh ≤ number →
      number < (machine.step env limit nextFresh).nextFresh →
        names (freshStem ++ toString number)) :
    (machine.step env limit nextFresh).outcome.machine.Over names where
  branches branch hbranch := by
    rcases Machine.grows_step machine branch hbranch with hsame | ⟨earlier, hearlier, hleads⟩
    · exact hmachine.branches branch hsame
    · exact hleads.over hfresh (hmachine.branches earlier hearlier)
  untried clause hclause := by
    rcases Machine.mem_untried_step hclause with hsame | ⟨signature, hstored⟩
    · exact hmachine.untried clause hsame
    · exact hstore signature clause hstored

end Steps

end Over

end Horn
