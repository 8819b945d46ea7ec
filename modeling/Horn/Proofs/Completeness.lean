/-
Completeness of searches that come to an end.  An assignment that makes the
query true in the least model always has a branch, or a clause still to be
tried, that it fits; so when nothing is left to try it has met an answer.  The
one exception is a body that gives two linked variables of its caller different
values: the caller compares them and does not unify them.
-/
import Horn.Proofs.Hygiene
import Horn.Proofs.Soundness

namespace Horn

section Agreement

variable {left right : Valuation}

/-- Two assignments agree on a name. -/
def Agrees (left right : Valuation) (name : Var) : Prop :=
  left name = right name

theorem Term.eval_of_over {term : Term} (hterm : term.Over (Agrees left right)) :
    term.eval left = term.eval right :=
  (term.eval_eq_iff left right).mpr hterm

theorem Valuation.Satisfies.of_within {bindings : Bindings} (hsatisfies : left.Satisfies bindings)
    (hwithin : bindings.Within (Term.Over (Agrees left right))) : right.Satisfies bindings := by
  intro name term hget
  obtain ⟨hname, hterm⟩ := hwithin name term hget
  have heq := hsatisfies name term hget
  rwa [Term.eval_of_over hterm, show left name = right name from
    Term.eval_of_over (show (Term.var name).Over _ from hname)] at heq

theorem Goal.Holds.of_agrees {model : Set Tree} {goal : Goal} (hholds : goal.Holds model left)
    (hgoal : ∀ name ∈ goal.occurrences, Agrees left right name) : goal.Holds model right := by
  cases goal with
  | assign target value => exact hholds
  | fact goal =>
      have hterm : goal.toTerm.Over (Agrees left right) := hgoal
      simp only [Holds] at hholds ⊢
      cases hbuiltin : Builtin.ofFact? goal with
      | none =>
          rw [hbuiltin] at hholds
          rwa [← Term.eval_of_over hterm]
      | some builtin =>
          rw [hbuiltin] at hholds
          cases builtin with
          | unify first second =>
              obtain ⟨hfirst, hsecond⟩ := Builtin.over_unify hbuiltin hterm
              have hequal : first.eval left = second.eval left := hholds
              rwa [Term.eval_of_over hfirst, Term.eval_of_over hsecond] at hequal
          | _ => exact hholds

theorem Query.Holds.of_agrees {model : Set Tree} {goals : Query}
    (hholds : Query.Holds model left goals)
    (hgoals : ∀ name ∈ Query.occurrences goals, Agrees left right name) :
    Query.Holds model right goals := fun goal hgoal =>
  (hholds goal hgoal).of_agrees fun name hname =>
    hgoals name (List.mem_flatMap.mpr ⟨goal, hgoal, hname⟩)

end Agreement

/-- A tree is an instance of the clause's head, and the body holds with it. -/
def Clause.Yields (model : Set Tree) (tree : Tree) : Clause → Prop
  | .fact head => ∃ valuation : Valuation, head.toTerm.eval valuation = tree
  | .rule head body => ∃ valuation : Valuation,
      head.toTerm.eval valuation = tree ∧ Query.Holds model valuation body

/-- Only what clauses yield is in the least model. -/
theorem exists_yields_of_mem_leastModel {program : List Statement} {tree : Tree}
    (htree : tree ∈ leastModel program) :
    ∃ clause, .clause clause ∈ program ∧ clause.Yields (leastModel program) tree := by
  obtain ⟨hmodel, hleast⟩ := isLeast_leastModel program
  -- What clauses yield from the least model is itself a model.
  have hyielded : { tree ∈ leastModel program |
      ∃ clause, .clause clause ∈ program ∧ clause.Yields (leastModel program) tree } ∈
      models program := by
    intro clause hclause
    have hholds := hmodel clause hclause
    cases clause with
    | fact head => exact fun valuation => ⟨hholds valuation, _, hclause, valuation, rfl⟩
    | rule head body =>
        intro valuation hbody
        have hbody : Query.Holds (leastModel program) valuation body :=
          fun goal hgoal => (hbody goal hgoal).mono fun _ hmem => hmem.1
        exact ⟨hholds valuation hbody, _, hclause, valuation, rfl, hbody⟩
  exact (hleast hyielded htree).2

/-- New names that are told apart make no difference to what a clause yields. -/
theorem Clause.Yields.rename {model : Set Tree} {tree : Tree} {clause : Clause}
    (hyields : clause.Yields model tree) {image : Var → Var}
    (hinjective : ∀ left ∈ clause.occurrences, ∀ right ∈ clause.occurrences,
      image left = image right → left = right) : (clause.rename image).Yields model tree := by
  have hlift : ∀ valuation : Valuation, ∃ lifted : Valuation,
      ∀ name ∈ clause.occurrences, Agrees valuation (fun source => lifted (image source)) name := by
    intro valuation
    obtain ⟨lifted, hlifted, _⟩ := exists_valuation_image hinjective valuation valuation
    exact ⟨lifted, fun name hname => (hlifted name hname).symm⟩
  cases clause with
  | fact head =>
      obtain ⟨valuation, hhead⟩ := hyields
      obtain ⟨lifted, hagree⟩ := hlift valuation
      have hsame : head.toTerm.Over (Agrees valuation fun source => lifted (image source)) := hagree
      refine ⟨lifted, ?_⟩
      rw [head.toTerm_rename, Term.eval_rename, ← hhead, Term.eval_of_over hsame]
  | rule head body =>
      obtain ⟨valuation, hhead, hbody⟩ := hyields
      obtain ⟨lifted, hagree⟩ := hlift valuation
      have hsame : head.toTerm.Over (Agrees valuation fun source => lifted (image source)) :=
        fun name hname => hagree name (List.mem_append_left _ hname)
      refine ⟨lifted, ?_, Query.holds_rename.mpr (hbody.of_agrees fun name hname =>
        hagree name (List.mem_append_right _ hname))⟩
      rw [head.toTerm_rename, Term.eval_rename, ← hhead, Term.eval_of_over hsame]

namespace Theory

theorem mem_lookup_insertAll {theory : Theory} {signature : Signature} {stored : Clause}
    (hstored : stored ∈ theory.lookup signature) (statements : List Statement) :
    stored ∈ (theory.insertAll statements).lookup signature := by
  induction statements generalizing theory with
  | nil => exact hstored
  | cons statement statements ih =>
      obtain ⟨more, hmore, _⟩ := theory.lookup_insertStatement statement signature
      refine ih ?_
      rw [hmore]
      exact List.mem_append_left _ hstored

/-- Every clause of a program has a copy in the store. -/
theorem exists_mem_lookup {statements : List Statement} {clause : Clause}
    (hclause : .clause clause ∈ statements) (theory : Theory) :
    ∃ start, (clause.renameApart storeStem start).1 ∈
      (theory.insertAll statements).lookup clause.signature := by
  induction statements generalizing theory with
  | nil => cases hclause
  | cons statement statements ih =>
      rcases List.mem_cons.mp hclause with rfl | hclause
      · refine ⟨theory.nextVar, mem_lookup_insertAll ?_ statements⟩
        rw [insertStatement, lookup_insert, if_pos rfl]
        exact List.mem_append_right _ List.mem_cons_self
      · exact ih hclause (theory.insertStatement statement)

end Theory

/-- A true goal on a user predicate is yielded by one of the clauses that are
tried for it. -/
theorem exists_stored_yields {program : List Statement} {goal : Fact} {valuation : Valuation}
    (huser : Builtin.ofFact? goal = none)
    (hgoal : (Goal.fact goal).Holds (leastModel program) valuation) :
    ∃ clause ∈ (Theory.ofStatements program).lookup goal.signature,
      clause.Yields (leastModel program) (goal.toTerm.eval valuation) := by
  rw [Goal.Holds, huser] at hgoal
  obtain ⟨clause, hclause, hyields⟩ := exists_yields_of_mem_leastModel hgoal
  obtain ⟨start, hstored⟩ := Theory.exists_mem_lookup hclause Theory.empty
  have hsignature : clause.signature = goal.signature := by
    cases clause with
    | fact head =>
        obtain ⟨_, hhead⟩ := hyields
        exact Fact.signature_eq_of_eval hhead
    | rule head body =>
        obtain ⟨_, hhead, _⟩ := hyields
        exact Fact.signature_eq_of_eval hhead
  rw [hsignature] at hstored
  exact ⟨_, hstored, hyields.rename fun left hleft right hright =>
    clause.image_injective storeStem start hleft hright⟩

theorem Term.sameText_refl (term : Term) : term.sameText term = true := by
  simp [sameText]

/-- What still ends in a variable once another has its value did so before. -/
theorem Bindings.Acyclic.dereference_of_insert {before : Bindings} (hacyclic : before.Acyclic)
    {root name target : Var} {value : Term} (hunbound : before.get? root = none)
    (hinserted : (before.insert root value).Acyclic) (hvalue : value.isVar = false)
    (hend : (before.insert root value).dereference (.var name) = .var target) :
    before.dereference (.var name) = .var target := by
  obtain ⟨hled, hother⟩ := hacyclic.dereference_insert hunbound hinserted name
  by_cases hsame : before.dereference (.var name) = .var root
  · rw [hled hsame, Bindings.dereference_of_not_isVar _ hvalue] at hend
    simp [hend, Term.isVar] at hvalue
  · rwa [hother hsame] at hend

/-- Values that a common solution gives are carried back, if linked variables
have the same. -/
theorem project_isSome {found caller : Bindings} {wanted : List Var} {valuation : Valuation}
    (hacyclic : caller.Acyclic) (hfound : valuation.Satisfies found)
    (hcaller : valuation.Satisfies caller)
    (hends : ∀ name ∈ wanted, (caller.dereference (.var name)).isVar = true ∨
      caller.dereference (.var name) = found.value name)
    (hlinked : ∀ first ∈ wanted, ∀ second ∈ wanted, ∀ root,
      caller.dereference (.var first) = .var root → caller.dereference (.var second) = .var root →
      found.value first = found.value second) :
    (project found wanted caller).isSome = true := by
  induction wanted generalizing caller with
  | nil => rfl
  | cons name wanted ih =>
      obtain ⟨hend, hends⟩ := List.forall_mem_cons.mp hends
      have hrest : ∀ first ∈ wanted, ∀ second ∈ wanted, ∀ root,
          caller.dereference (.var first) = .var root →
          caller.dereference (.var second) = .var root →
          found.value first = found.value second :=
        fun first hfirst second hsecond =>
          hlinked first (List.mem_cons_of_mem _ hfirst) second (List.mem_cons_of_mem _ hsecond)
      rw [project]
      split
      · exact ih hacyclic hcaller hends hrest
      · next hvalue =>
          rw [Bool.not_eq_true] at hvalue
          cases hroot : caller.dereference (.var name) with
          | var root =>
              obtain ⟨hbind, hinserted, hsolved⟩ :=
                Bindings.bind?_of_solved hacyclic hroot hvalue hcaller (hfound.eval_value name).symm
              have hunbound := hacyclic.unbound_of_dereference hroot
              have hled := fun other => hacyclic.dereference_insert hunbound hinserted other
              rw [Bindings.dereference_of_not_isVar _ hvalue] at hled
              rw [hbind]
              refine ih hinserted hsolved (fun other hother => ?_)
                fun first hfirst second hsecond target hone htwo => ?_
              · -- A linked variable has the value now that it is yet to be given.
                by_cases hsame : caller.dereference (.var other) = .var root
                · rw [(hled other).1 hsame]
                  exact Or.inr (hlinked name List.mem_cons_self other
                    (List.mem_cons_of_mem _ hother) root hroot hsame)
                · rw [(hled other).2 hsame]
                  exact hends other hother
              · have hleft : ∀ other,
                    (caller.insert root (found.value name)).dereference (.var other) =
                      .var target → caller.dereference (.var other) = .var target :=
                  fun other => hacyclic.dereference_of_insert hunbound hinserted hvalue
                exact hrest first hfirst second hsecond target (hleft first hone)
                  (hleft second htwo)
          | _ =>
              have hbound : (caller.dereference (.var name)).isVar = false := by rw [hroot]; rfl
              have hsame := hend.resolve_left (by simp [hbound])
              rw [Bindings.bind?_of_bound hbound, hsame, Term.sameText_refl, if_pos rfl]
              exact ih hacyclic hcaller hends hrest

/-- A common solution fits what is carried back. -/
theorem Valuation.Satisfies.project {found caller after : Bindings} {wanted : List Var}
    {valuation : Valuation} (hacyclic : caller.Acyclic) (hfound : valuation.Satisfies found)
    (hcaller : valuation.Satisfies caller) (hafter : project found wanted caller = some after) :
    valuation.Satisfies after := by
  induction wanted generalizing caller with
  | nil => exact Option.some.inj hafter ▸ hcaller
  | cons name wanted ih =>
      rw [Horn.project] at hafter
      split at hafter
      · exact ih hacyclic hcaller hafter
      · next hvalue =>
          rw [Bool.not_eq_true] at hvalue
          cases hbind : caller.bind? name (found.value name) with
          | none => simp [hbind] at hafter
          | some extended =>
              simp only [hbind] at hafter
              refine ih (hacyclic.bind? hbind).1 ?_ hafter
              rcases Bindings.eq_or_of_bind? hbind with rfl | ⟨root, hroot, _, rfl⟩
              · exact hcaller
              · exact (Bindings.bind?_of_solved hacyclic hroot hvalue hcaller
                  (hfound.eval_value name).symm).2.2

/-- A caller waits for the values of variables that have none. -/
def Frame.Linked : Frame → Prop
  | .goals _ _ => True
  | .statements _ => True
  | .project caller wanted => ∀ name ∈ wanted, (caller.dereference (.var name)).isVar = true

theorem linked_pushGoals {pending : Query} {depth : Nat} {rest : List Frame}
    (hrest : ∀ frame ∈ rest, frame.Linked) :
    ∀ frame ∈ pushGoals pending depth rest, frame.Linked := by
  cases pending with
  | nil => exact hrest
  | cons goal pending => exact List.forall_mem_cons.mpr ⟨trivial, hrest⟩

section Linked

variable {env : Environment} {limit : Option Nat} {goals : Query}

theorem Moves.linked {branch next : Branch} {more : List Handback}
    (hmove : Moves env limit branch more next) (hregular : branch.Regular)
    (hbranch : ∀ frame ∈ branch.frames, frame.Linked) : ∀ frame ∈ next.frames, frame.Linked := by
  cases hmove with
  | done bindings depth rest => exact (List.forall_mem_cons.mp hbranch).2
  | builtin _ _ => exact linked_pushGoals (List.forall_mem_cons.mp hbranch).2
  | clause _ _ hattempt =>
      have hrest := (List.forall_mem_cons.mp hbranch).2
      rcases Choice.attempt_eq_some hattempt with
        ⟨stored, image, found, rfl, hfound, rfl⟩ | ⟨head, body, image, initial, rfl, hinitial, rfl⟩
      · exact linked_pushGoals hrest
      · refine List.forall_mem_cons.mpr ⟨trivial, List.forall_mem_cons.mpr ⟨?_,
          linked_pushGoals hrest⟩⟩
        exact fun name hname =>
          hregular.acyclic.isVar_of_mem_groundFact (Fact.mem_variables.mp hname)
  | project _ => exact (List.forall_mem_cons.mp hbranch).2

theorem Derives.linked (hstore : env.theory.All Clause.Logical) (hgoals : Query.Logical goals)
    {handbacks : List Handback} {branch : Branch}
    (hderives : Derives env limit goals handbacks branch) :
    ∀ frame ∈ branch.frames, frame.Linked := by
  induction hderives with
  | start => exact List.forall_mem_singleton.mpr trivial
  | move hearlier hmove ih => exact hmove.linked (hearlier.regular hstore hgoals) ih

end Linked

/-- The goals of a frame hold, or the caller's substitution is solved. -/
def Frame.Holds (model : Set Tree) (valuation : Valuation) : Frame → Prop
  | .goals pending _ => Query.Holds model valuation pending
  | .statements _ => False
  | .project caller _ => valuation.Satisfies caller

/-- One assignment solves the substitution and all callers', and makes every goal
true that is left. -/
structure Branch.Holds (model : Set Tree) (valuation : Valuation) (branch : Branch) : Prop where
  bindings : valuation.Satisfies branch.bindings
  frames : ∀ frame ∈ branch.frames, frame.Holds model valuation

/-- The branch of the choice holds, by a clause that is still to be tried. -/
structure Choice.Holds (model : Set Tree) (valuation : Valuation) (choice : Choice) : Prop where
  bindings : valuation.Satisfies choice.bindings
  rest : ∀ frame ∈ choice.rest, frame.Holds model valuation
  untried : ∃ clause ∈ choice.untried,
    clause.Yields model (choice.goal.toTerm.eval valuation)

/-- The branch at hand holds, or some choice does. -/
def Machine.Holds (model : Set Tree) (valuation : Valuation) (machine : Machine) : Prop :=
  (∃ branch, machine.current = some branch ∧ branch.Holds model valuation) ∨
    ∃ choice ∈ machine.choices, choice.Holds model valuation

/-- The assignment fits the answer, or what is left to search. -/
def Outcome.Holds (model : Set Tree) (valuation : Valuation) : Outcome → Prop
  | .running machine => machine.Holds model valuation
  | .answer found machine => valuation.Satisfies found ∨ machine.Holds model valuation
  | .exhausted => False

/-- A body is proved and the assignment fits all that is left, and yet nothing is
carried back to the caller: the body gives two variables that are linked there
different values. -/
structure Branch.Refused (model : Set Tree) (valuation : Valuation) (branch : Branch) : Prop where
  holds : branch.Holds model valuation
  refused : ∃ caller wanted rest, branch.frames = .project caller wanted :: rest ∧
    project branch.bindings wanted caller = none ∧
    ∃ first ∈ wanted, ∃ second ∈ wanted, ∃ root,
      caller.dereference (.var first) = .var root ∧
      caller.dereference (.var second) = .var root ∧
      branch.bindings.value first ≠ branch.bindings.value second

theorem Outcome.holds_of_choice {model : Set Tree} {valuation : Valuation} {outcome : Outcome}
    {choice : Choice} (hchoice : choice ∈ outcome.machine.choices)
    (hholds : choice.Holds model valuation) : outcome.Holds model valuation := by
  cases outcome with
  | running machine => exact Or.inr ⟨choice, hchoice, hholds⟩
  | answer found machine => exact Or.inr (Or.inr ⟨choice, hchoice, hholds⟩)
  | exhausted => cases hchoice

theorem Frame.Holds.of_agrees {model : Set Tree} {left right : Valuation} {frame : Frame}
    (hholds : frame.Holds model left) (hframe : frame.Over (Agrees left right)) :
    frame.Holds model right := by
  cases frame with
  | goals pending depth => exact Query.Holds.of_agrees hholds hframe
  | statements pending => exact hholds
  | project caller wanted => exact Valuation.Satisfies.of_within hholds hframe.1

theorem holds_pushGoals {model : Set Tree} {valuation : Valuation} {pending : Query} {depth : Nat}
    {rest : List Frame} (hpending : Query.Holds model valuation pending)
    (hrest : ∀ frame ∈ rest, frame.Holds model valuation) :
    ∀ frame ∈ pushGoals pending depth rest, frame.Holds model valuation := by
  cases pending with
  | nil => exact hrest
  | cons goal pending => exact List.forall_mem_cons.mpr ⟨hpending, hrest⟩

theorem unify_of_solved {left right : Term} {bindings : Bindings} {valuation : Valuation}
    (hacyclic : bindings.Acyclic) (hsatisfies : valuation.Satisfies bindings)
    (hequal : left.eval valuation = right.eval valuation) :
    ∃ found, unify left right bindings = some found ∧ valuation.Satisfies found := by
  cases hfound : unify left right bindings with
  | none => exact absurd hequal (unify_eq_none hacyclic hfound hsatisfies)
  | some found =>
      exact ⟨found, rfl,
        ((unify_extension hacyclic hfound).satisfies_iff valuation).mpr ⟨hsatisfies, hequal⟩⟩

/-- A true goal of the engine is proved, and the assignment fits what is found. -/
theorem Builtin.Holds.prove {builtin : Builtin} {valuation : Valuation} {bindings : Bindings}
    (hholds : builtin.Holds valuation) (hacyclic : bindings.Acyclic)
    (hsatisfies : valuation.Satisfies bindings) (env : Environment) :
    ∃ found, (builtin.prove env bindings).result = some found ∧ valuation.Satisfies found := by
  cases builtin with
  | unify left right => exact unify_of_solved hacyclic hsatisfies hholds
  | succeed => exact ⟨bindings, rfl, hsatisfies⟩
  | fail => exact hholds.elim
  | write text => exact hholds.elim
  | assert added => exact hholds.elim

section Steps

variable {env : Environment} {goals : Query} {program : List Statement} {valuation : Valuation}

/-- Moving a branch on leaves the choices that there are. -/
theorem choices_subset_advance (env : Environment) (nextFresh : Nat) (choices : List Choice)
    (bindings : Bindings) (frames : List Frame) :
    choices ⊆ (Machine.advance env nextFresh choices bindings frames).outcome.machine.choices := by
  intro choice hchoice
  rw [Machine.advance.eq_def]
  split
  case h_3 goal pending depth rest =>
    cases goal with
    | assign target value => exact hchoice
    | fact goal =>
        rw [Outcome.machine, Machine.select]
        split
        · exact hchoice
        · exact List.mem_cons_of_mem _ hchoice
  all_goals exact hchoice

/-- A branch that an assignment fits moves on to one, unless it is refused. -/
theorem Branch.Holds.advance (htheory : env.theory = Theory.ofStatements program)
    (hstore : env.theory.All Clause.Logical) (hgoals : Query.Logical goals)
    {handbacks : List Handback} {branch : Branch}
    (hderives : Derives env none goals handbacks branch)
    (hholds : branch.Holds (leastModel program) valuation) (nextFresh : Nat)
    (choices : List Choice) :
    (Machine.advance env nextFresh choices branch.bindings branch.frames).outcome.Holds
      (leastModel program) valuation ∨ branch.Refused (leastModel program) valuation := by
  obtain ⟨hacyclic, hregular⟩ := hderives.regular hstore hgoals
  have hlinked := hderives.linked hstore hgoals
  obtain ⟨bindings, frames⟩ := branch
  obtain ⟨hsatisfies, hframes⟩ := hholds
  cases frames with
  | nil => exact Or.inl (Or.inl hsatisfies)
  | cons frame rest =>
      obtain ⟨hframe, hrest⟩ := List.forall_mem_cons.mp hframes
      cases frame with
      | statements pending => exact hframe.elim
      | goals pending depth =>
          cases pending with
          | nil => exact Or.inl (Or.inl ⟨_, rfl, hsatisfies, hrest⟩)
          | cons goal pending =>
              obtain ⟨hgoal, hpending⟩ := List.forall_mem_cons.mp hframe
              have hpushed : ∀ frame ∈ pushGoals pending depth rest,
                  frame.Holds (leastModel program) valuation := holds_pushGoals hpending hrest
              refine Or.inl ?_
              cases goal with
              | assign target value => exact hgoal.elim
              | fact goal =>
                  rw [Machine.advance, Machine.select]
                  cases hbuiltin : Builtin.ofFact? goal with
                  | some builtin =>
                      have hbuiltinHolds : builtin.Holds valuation := by
                        rwa [Goal.Holds, hbuiltin] at hgoal
                      obtain ⟨found, hproved, hfound⟩ :=
                        hbuiltinHolds.prove hacyclic hsatisfies env
                      refine Or.inl ⟨⟨found, pushGoals pending depth rest⟩, ?_, hfound, hpushed⟩
                      simp only [hproved, Option.map_some]
                  | none =>
                      refine Or.inr ⟨_, List.mem_cons_self, hsatisfies, hpushed, ?_⟩
                      rw [htheory]
                      exact exists_stored_yields hbuiltin hgoal
      | project caller wanted =>
          obtain ⟨hcallerAcyclic, _⟩ := List.forall_mem_cons.mp hregular
          obtain ⟨hwanted, _⟩ := List.forall_mem_cons.mp hlinked
          rw [Machine.advance]
          cases hafter : project bindings wanted caller with
          | some after =>
              exact Or.inl (Or.inl ⟨⟨after, rest⟩, rfl,
                hsatisfies.project hcallerAcyclic hframe hafter, hrest⟩)
          | none =>
              -- only two linked variables with different values can stand in the way
              refine Or.inr ⟨⟨hsatisfies, hframes⟩, caller, wanted, rest, rfl, hafter, ?_⟩
              by_contra hdiffer
              push Not at hdiffer
              have hsome := project_isSome hcallerAcyclic hsatisfies hframe
                (fun name hname => Or.inl (hwanted name hname)) hdiffer
              simp [hafter] at hsome

/-- The names of a clause's copy are in use nowhere, so any assignment to them goes
with one that fits a choice. -/
theorem Choice.exists_lift {choice : Choice} {nextFresh : Nat} {model : Set Tree}
    (hover : choice.branch.Over (Older nextFresh))
    (hsatisfies : valuation.Satisfies choice.bindings)
    (hrest : ∀ frame ∈ choice.rest, frame.Holds model valuation) (clause : Clause)
    (inner : Valuation) :
    ∃ extended : Valuation,
      (∀ name ∈ clause.occurrences, Agrees inner (fun source =>
        extended ((clause.renameApart freshStem nextFresh).2.image source)) name) ∧
      (∀ name, Older nextFresh name → Agrees valuation extended name) ∧
      extended.Satisfies choice.bindings ∧ (∀ frame ∈ choice.rest, frame.Holds model extended) ∧
      choice.goal.toTerm.eval extended = choice.goal.toTerm.eval valuation := by
  obtain ⟨hbindings, hframes⟩ := hover
  obtain ⟨hgoal, hframes⟩ := List.forall_mem_cons.mp hframes
  have hgoal : choice.goal.toTerm.Over (Older nextFresh) := over_goal hgoal
  obtain ⟨extended, hinner, houter⟩ := clause.exists_valuation nextFresh inner valuation
  have hagree : ∀ name, Older nextFresh name → Agrees valuation extended name :=
    fun name hname => (houter name hname).symm
  refine ⟨extended, fun name hname => (hinner name hname).symm, hagree, ?_, ?_, ?_⟩
  · exact hsatisfies.of_within (hbindings.imp fun _ hterm => hterm.mono hagree)
  · exact fun frame hframe => (hrest frame hframe).of_agrees ((hframes frame hframe).mono hagree)
  · exact (Term.eval_of_over (hgoal.mono hagree)).symm

/-- The clause that an assignment makes yield a goal is tried with success. -/
theorem Choice.attempt_of_yields {choice : Choice} {clause : Clause} {nextFresh : Nat}
    {model : Set Tree} (hacyclic : choice.bindings.Acyclic)
    (hover : choice.branch.Over (Older nextFresh))
    (hsatisfies : valuation.Satisfies choice.bindings)
    (hrest : ∀ frame ∈ choice.rest, frame.Holds model valuation)
    (hyields : clause.Yields model (choice.goal.toTerm.eval valuation)) :
    ∃ extended : Valuation, (∀ name, Older nextFresh name → Agrees valuation extended name) ∧
      ∃ next, (choice.attempt none nextFresh clause).2 = some next ∧
        next.Holds model extended := by
  have hlift := Choice.exists_lift hover hsatisfies hrest clause
  cases clause with
  | fact stored =>
      obtain ⟨inner, hhead⟩ := hyields
      obtain ⟨extended, hinner, hagree, hbindings, hrest, hsame⟩ := hlift inner
      have hstored : stored.toTerm.Over _ := hinner
      obtain ⟨found, hfound, hsolved⟩ : ∃ found, unifyFacts
          (stored.rename ((Clause.fact stored).renameApart freshStem nextFresh).2.image)
          choice.goal choice.bindings = some found ∧ extended.Satisfies found := by
        refine unify_of_solved hacyclic hbindings ?_
        rw [stored.toTerm_rename, Term.eval_rename, ← Term.eval_of_over hstored, hhead, hsame]
      refine ⟨extended, hagree, ⟨found, choice.rest⟩, ?_, hsolved, hrest⟩
      rw [attempt_fact, hfound]
      rfl
  | rule head body =>
      -- the head is unified on its own, and the caller waits behind the body
      obtain ⟨inner, hhead, hbody⟩ := hyields
      obtain ⟨extended, hinner, hagree, hbindings, hrest, hsame⟩ := hlift inner
      have hheadAgrees : head.toTerm.Over _ :=
        fun name hname => hinner name (List.mem_append_left _ hname)
      let image := ((Clause.rule head body).renameApart freshStem nextFresh).2.image
      obtain ⟨initial, hinitial, hsolved⟩ : ∃ initial, unifyFacts (head.rename image)
          (choice.bindings.groundFact choice.goal) .empty = some initial ∧
          extended.Satisfies initial := by
        refine unify_of_solved Bindings.acyclic_empty extended.satisfies_empty ?_
        rw [head.toTerm_rename, Term.eval_rename, ← Term.eval_of_over hheadAgrees, hhead,
          hbindings.eval_groundFact, hsame]
      have hbody : Query.Holds model extended (Query.rename image body) :=
        Query.holds_rename.mpr
          (hbody.of_agrees fun name hname => hinner name (List.mem_append_right _ hname))
      refine ⟨extended, hagree, ⟨initial, .goals (Query.rename image body) (choice.depth + 1) ::
        .project choice.bindings (choice.bindings.groundFact choice.goal).variables ::
          choice.rest⟩, ?_, hsolved, ?_⟩
      · rw [attempt_rule nextFresh rfl, hinitial]
        rfl
      · exact List.forall_mem_cons.mpr ⟨hbody, List.forall_mem_cons.mpr ⟨hbindings, hrest⟩⟩

/-- Coming back to a choice keeps what an assignment fits, but for the values of
names that are new. -/
theorem Machine.Holds.retry (hstore : env.theory.All Clause.Logical)
    (hgoals : Query.Logical goals) {model : Set Tree} {choices : List Choice} {nextFresh : Nat}
    (htraced : ∀ choice ∈ choices, choice.Traced env none goals)
    (hover : ∀ choice ∈ choices, choice.branch.Over (Older nextFresh))
    (hholds : ∃ choice ∈ choices, choice.Holds model valuation) :
    ∃ extended : Valuation, (∀ name, Older nextFresh name → Agrees valuation extended name) ∧
      (Machine.retry none nextFresh choices).outcome.Holds model extended := by
  obtain ⟨live, hlive, hbindings, hrest, clause, hclause, hyields⟩ := hholds
  cases choices with
  | nil => cases hlive
  | cons choice choices =>
      obtain ⟨hchoice, _⟩ := List.forall_mem_cons.mp hover
      obtain ⟨htraced, _⟩ := List.forall_mem_cons.mp htraced
      rcases List.mem_cons.mp hlive with rfl | holder
      · obtain ⟨goal, bindings, rest, depth, untried⟩ := live
        obtain ⟨handbacks, pending, frames, hderives, _⟩ := htraced.derived
        have hacyclic := (hderives.regular hstore hgoals).acyclic
        cases untried with
        | nil => cases hclause
        | cons first untried =>
            rcases List.mem_cons.mp hclause with rfl | hlater
            · obtain ⟨extended, hagree, next, hnext, hholds⟩ :=
                Choice.attempt_of_yields hacyclic hchoice hbindings hrest hyields
              exact ⟨extended, hagree, Or.inl ⟨next, hnext, hholds⟩⟩
            · exact ⟨valuation, fun _ _ => rfl, Or.inr ⟨_, List.mem_cons_self,
                hbindings, hrest, clause, hlater, hyields⟩⟩
      · have hstill : live.Holds model valuation := ⟨hbindings, hrest, clause, hclause, hyields⟩
        obtain ⟨goal, bindings, rest, depth, untried⟩ := choice
        refine ⟨valuation, fun _ _ => rfl, ?_⟩
        cases untried with
        | nil => exact Or.inr ⟨live, holder, hstill⟩
        | cons first untried => exact Or.inr ⟨live, List.mem_cons_of_mem _ holder, hstill⟩

/-- One step of a machine keeps what an assignment fits, but for the values of
names that are new, unless the branch at hand is refused. -/
theorem Machine.Holds.step (htheory : env.theory = Theory.ofStatements program)
    (hstore : env.theory.All Clause.Logical) (hgoals : Query.Logical goals) {machine : Machine}
    {nextFresh : Nat} (htraced : machine.Traced env none goals)
    (hover : machine.Over (Older nextFresh))
    (hholds : machine.Holds (leastModel program) valuation) :
    (∃ extended : Valuation, (∀ name, Older nextFresh name → Agrees valuation extended name) ∧
      (machine.step env none nextFresh).outcome.Holds (leastModel program) extended) ∨
    ∃ branch, machine.current = some branch ∧ branch.Refused (leastModel program) valuation := by
  obtain ⟨current, choices⟩ := machine
  cases current with
  | none =>
      refine Or.inl (Machine.Holds.retry hstore hgoals htraced.choices
        (fun choice hchoice => hover.branches _ (mem_branches_of_choice hchoice)) ?_)
      exact hholds.resolve_left fun ⟨branch, hbranch, _⟩ => by cases hbranch
  | some branch =>
      rcases hholds with ⟨_, hbranch, hlive⟩ | ⟨choice, hchoice, hlive⟩
      · obtain rfl := Option.some.inj hbranch
        obtain ⟨handbacks, hderives⟩ := htraced.current branch rfl
        rcases hlive.advance htheory hstore hgoals hderives nextFresh choices with hnext | hrefused
        · exact Or.inl ⟨valuation, fun _ _ => rfl, hnext⟩
        · exact Or.inr ⟨branch, rfl, hrefused⟩
      · have hkept := choices_subset_advance env nextFresh choices branch.bindings branch.frames
          hchoice
        exact Or.inl ⟨valuation, fun _ _ => rfl, Outcome.holds_of_choice hkept hlive⟩

end Steps

/-- A search that stands on derived branches, with names that were handed out. -/
structure Search.Tracked (env : Environment) (goals : Query) (search : Search) : Prop where
  shared : search.env = env
  traced : search.machine.Traced env none goals
  older : search.machine.Over (Older search.nextFresh)

/-- The assignment fits the answer of a pull, or what is left after it. -/
def Pull.Holds (model : Set Tree) (valuation : Valuation) (machine : Machine) : Pull → Prop
  | .answer found => valuation.Satisfies found ∨ machine.Holds model valuation
  | .exhausted => False
  | .unfinished => machine.Holds model valuation

theorem Outcome.Traced.machine {env : Environment} {limit : Option Nat} {goals : Query}
    {outcome : Outcome} (htraced : outcome.Traced env limit goals) :
    outcome.machine.Traced env limit goals := by
  cases outcome with
  | running machine => exact htraced
  | answer found machine => exact htraced.1
  | exhausted => exact ⟨fun _ hbranch => (by cases hbranch), fun _ hchoice => (by cases hchoice)⟩

namespace Search

/-- A search comes to a state in which its branch is refused under an assignment
that agrees with the given one on the query's variables. -/
def Refuses (limit : Option Nat) (model : Set Tree) (goals : Query) (valuation : Valuation)
    (search : Search) : Prop :=
  ∃ steps branch, ((advance limit)^[steps] search).machine.current = some branch ∧
    ∃ extended : Valuation, (∀ name ∈ Query.occurrences goals, extended name = valuation name) ∧
      branch.Refused model extended

section Refuses

variable {limit : Option Nat} {model : Set Tree} {goals : Query} {valuation : Valuation}
  {search : Search}

theorem Refuses.of_eq {other : Valuation} (hrefuses : search.Refuses limit model goals other)
    (hsame : ∀ name ∈ Query.occurrences goals, other name = valuation name) :
    search.Refuses limit model goals valuation := by
  obtain ⟨steps, branch, hbranch, extended, hagree, hrefused⟩ := hrefuses
  exact ⟨steps, branch, hbranch, extended,
    fun name hname => (hagree name hname).trans (hsame name hname), hrefused⟩

theorem Refuses.of_iterate {steps : Nat}
    (hrefuses : ((advance limit)^[steps] search).Refuses limit model goals valuation) :
    search.Refuses limit model goals valuation := by
  obtain ⟨more, branch, hbranch, hrefused⟩ := hrefuses
  rw [← Function.iterate_add_apply] at hbranch
  exact ⟨more + steps, branch, hbranch, hrefused⟩

theorem Refuses.of_advance (hrefuses : (search.advance limit).Refuses limit model goals valuation) :
    search.Refuses limit model goals valuation := by
  have hone : ((advance limit)^[1] search).Refuses limit model goals valuation := hrefuses
  exact hone.of_iterate

/-- Pulling a search takes some number of steps. -/
theorem exists_iterate_pullUpTo (limit : Option Nat) (fuel : Nat) (search : Search) :
    ∃ steps, (search.pullUpTo limit fuel).1 = (advance limit)^[steps] search := by
  have hadvance : ∀ later : Search, (∃ steps, later = (advance limit)^[steps] search) →
      ∃ steps, later.advance limit = (advance limit)^[steps] search := by
    rintro _ ⟨steps, rfl⟩
    exact ⟨steps + 1, (Function.iterate_succ_apply' _ _ _).symm⟩
  exact pullUpTo_of_advance hadvance ⟨0, rfl⟩ fuel

end Refuses

end Search

section Searches

variable {env : Environment} {goals : Query} {program : List Statement} {valuation : Valuation}

theorem Search.Tracked.advance (htheory : env.theory = Theory.ofStatements program)
    (hstore : env.theory.All Clause.Logical) (hgoals : Query.Logical goals) {search : Search}
    (hsearch : search.Tracked env goals) : (search.advance none).Tracked env goals := by
  obtain ⟨henv, htraced, hover⟩ := hsearch
  obtain ⟨hevents, houtcome⟩ := htraced.step hstore hgoals search.nextFresh
  refine ⟨?_, ?_, Machine.Over.step ?_ ?_ ?_⟩
  · rw [Search.advance, Search.after, henv, hevents]
    rfl
  · rw [Search.advance, henv]
    exact houtcome.machine
  · exact hover.mono fun _ hname => hname.mono search.machine.le_nextFresh_step
  · rw [henv, htheory]
    exact fun signature clause hclause name hname =>
      (Theory.numbered_ofStatements program signature clause hclause name hname).issued.older
  · exact fun number _ hlt => older_freshName hlt

/-- What an assignment fits is not lost in a pull, unless a branch is refused. -/
theorem Search.Tracked.pullUpTo (htheory : env.theory = Theory.ofStatements program)
    (hstore : env.theory.All Clause.Logical) (hgoals : Query.Logical goals)
    (hnames : ∀ name ∈ Query.occurrences goals, ∀ fresh, Older fresh name) {fuel : Nat}
    {search next : Search} {pull : Pull} (hsearch : search.Tracked env goals)
    (hholds : search.machine.Holds (leastModel program) valuation)
    (hpull : search.pullUpTo none fuel = (next, pull)) :
    (∃ extended : Valuation, (∀ name ∈ Query.occurrences goals, extended name = valuation name) ∧
      pull.Holds (leastModel program) extended next.machine) ∨
    search.Refuses none (leastModel program) goals valuation := by
  induction fuel generalizing search valuation with
  | zero =>
      obtain ⟨rfl, rfl⟩ := Prod.mk.inj hpull
      exact Or.inl ⟨valuation, fun _ _ => rfl, hholds⟩
  | succ fuel ih =>
      have hadvance := hsearch.advance htheory hstore hgoals
      obtain ⟨henv, htraced, hover⟩ := hsearch
      rcases hholds.step htheory hstore hgoals htraced hover with
        ⟨extended, hagree, hstep⟩ | ⟨branch, hbranch, hrefused⟩
      · have hsame : ∀ name ∈ Query.occurrences goals, extended name = valuation name :=
          fun name hname => (hagree name (hnames name hname _)).symm
        rw [← henv] at hstep
        rw [Search.pullUpTo] at hpull
        cases houtcome : (search.machine.step search.env none search.nextFresh).outcome with
        | running machine =>
            have hafter : search.after (search.machine.step search.env none search.nextFresh)
                machine = search.advance none := by
              rw [Search.advance, houtcome]
              rfl
            -- the assignment may have been extended, but not at the names of the query
            simp only [houtcome, hafter] at hpull hstep
            have hmachine : (search.advance none).machine = machine := by rw [← hafter]; rfl
            rcases ih hadvance (hmachine ▸ hstep) hpull with
              ⟨further, hfurther, hleft⟩ | hrefuses
            · exact Or.inl ⟨further,
                fun name hname => (hfurther name hname).trans (hsame name hname), hleft⟩
            · exact Or.inr (hrefuses.of_eq hsame).of_advance
        | answer found machine =>
            simp only [houtcome] at hpull hstep
            obtain ⟨rfl, rfl⟩ := Prod.mk.inj hpull
            exact Or.inl ⟨extended, hsame, hstep⟩
        | exhausted =>
            simp only [houtcome] at hstep
            exact hstep.elim
      · exact Or.inr ⟨0, branch, hbranch, valuation, fun _ _ => rfl, hrefused⟩

/-- A search that comes to an end has an answer for each assignment that fits it
at the start, unless a branch is refused. -/
theorem Search.Tracked.drains (htheory : env.theory = Theory.ofStatements program)
    (hstore : env.theory.All Clause.Logical) (hgoals : Query.Logical goals)
    (hnames : ∀ name ∈ Query.occurrences goals, ∀ fresh, Older fresh name)
    {search final : Search} {observations : List Observation} (hsearch : search.Tracked env goals)
    (hholds : search.machine.Holds (leastModel program) valuation)
    (hdrains : Search.Drains none search observations final) :
    (∃ answer, .answer answer ∈ observations ∧ ∃ extended : Valuation,
      (∀ name ∈ Query.occurrences goals, extended name = valuation name) ∧
        extended.Satisfies answer) ∨
    search.Refuses none (leastModel program) goals valuation := by
  induction hdrains generalizing valuation with
  | exhausted fuel hpull =>
      rcases hsearch.pullUpTo htheory hstore hgoals hnames hholds hpull with
        ⟨_, _, hnothing⟩ | hrefuses
      · exact hnothing.elim
      · exact Or.inr hrefuses
  | @answer search next final found rest fuel hpull _ ih =>
      rcases hsearch.pullUpTo htheory hstore hgoals hnames hholds hpull with
        ⟨extended, hsame, hfits | hlater⟩ | hrefuses
      · exact Or.inl ⟨found, List.mem_append_right _ List.mem_cons_self, extended, hsame, hfits⟩
      · have hnext : next.Tracked env goals := by
          have hkept := Search.pullUpTo_of_advance
            (fun _ hearlier => Search.Tracked.advance htheory hstore hgoals hearlier) hsearch fuel
          rwa [hpull] at hkept
        rcases ih hnext hlater with ⟨answer, hanswer, further, hfurther, hfits⟩ | hrefuses
        · exact Or.inl ⟨answer, List.mem_append_right _ (List.mem_cons_of_mem _ hanswer), further,
            fun name hname => (hfurther name hname).trans (hsame name hname), hfits⟩
        · obtain ⟨steps, hsteps⟩ := search.exists_iterate_pullUpTo none fuel
          rw [hpull] at hsteps
          obtain rfl : next = _ := hsteps
          exact Or.inr (hrefuses.of_eq hsame).of_iterate
      · exact Or.inr hrefuses

end Searches

/-- Over a program on user predicates, equality, success and failure, a search
without a limit that comes to an end has an answer for every assignment that
makes the query true in the least model, one that fits the answer if further
variables are given suitable values; or else the search comes to a body that is
proved for it, gives two linked variables of its caller different values, and is
refused. -/
theorem finite_search_covers_least_model (engine : Engine) (program : List Statement)
    (goals : Query) (htheory : engine.env.theory = Theory.ofStatements program)
    (hlimit : engine.resolver.maxDepth = none)
    (hprogram : ∀ clause, .clause clause ∈ program → clause.Logical)
    (hgoals : Query.Logical goals)
    (hnames : ∀ name ∈ Query.occurrences goals, ∀ number : Nat, name ≠ freshStem ++ toString number)
    (observations : List Observation) (final : Search)
    (hdrains : Search.Drains engine.resolver.maxDepth (engine.searchFor goals) observations final)
    (valuation : Valuation) (hholds : Query.Holds (leastModel program) valuation goals) :
    (∃ answer, .answer answer ∈ observations ∧ ∃ extended : Valuation,
      (∀ name ∈ Query.occurrences goals, extended name = valuation name) ∧
        extended.Satisfies answer) ∨
    (engine.searchFor goals).Refuses engine.resolver.maxDepth (leastModel program) goals
      valuation := by
  have hstore : engine.env.theory.All Clause.Logical := by
    rw [htheory]
    exact logical_ofStatements hprogram
  have holder : ∀ name ∈ Query.occurrences goals, ∀ fresh, Older fresh name :=
    fun name hname fresh number heq => absurd heq (hnames name hname number)
  have hbranch : ∀ branch ∈ (engine.searchFor goals).machine.branches,
      branch = ⟨.empty, [.goals goals 0]⟩ := fun branch hbranch => List.mem_singleton.mp hbranch
  have htracked : (engine.searchFor goals).Tracked engine.env goals := by
    refine ⟨rfl, traced_ofQuery _ _ goals, fun branch hmem => ?_, fun clause hclause => ?_⟩
    · rw [hbranch branch hmem]
      exact ⟨Bindings.within_empty _, List.forall_mem_singleton.mpr
        fun name hname => holder name hname _⟩
    · cases hclause
  have hstart : (engine.searchFor goals).machine.Holds (leastModel program) valuation :=
    Or.inl ⟨_, rfl, valuation.satisfies_empty, List.forall_mem_singleton.mpr hholds⟩
  rw [hlimit] at hdrains ⊢
  exact htracked.drains htheory hstore hgoals holder hstart hdrains

namespace Search

/-- Whether a search comes to its end in so many pulls of so many steps. -/
def endsWithin (limit : Option Nat) (fuel : Nat) : Nat → Search → Bool
  | 0, _ => false
  | pulls + 1, search =>
      match search.pullUpTo limit fuel with
      | (next, .answer _) => endsWithin limit fuel pulls next
      | (_, .exhausted) => true
      | (_, .unfinished) => false

theorem exists_drains {limit : Option Nat} {fuel pulls : Nat} {search : Search}
    (hends : search.endsWithin limit fuel pulls = true) :
    ∃ observations final, Drains limit search observations final := by
  induction pulls generalizing search with
  | zero => cases hends
  | succ pulls ih =>
      rw [endsWithin] at hends
      split at hends
      · next next found hpull =>
          obtain ⟨observations, final, hdrains⟩ := ih hends
          exact ⟨_, final, .answer fuel hpull hdrains⟩
      · next final hpull => exact ⟨_, final, .exhausted fuel hpull⟩
      · cases hends

end Search

/-- Whether a branch does not stand before a caller that takes nothing over. -/
def Branch.carriesBack (branch : Branch) : Bool :=
  match branch.frames with
  | .project caller wanted :: _ => (project branch.bindings wanted caller).isSome
  | _ => true

theorem Branch.Refused.carriesBack {model : Set Tree} {valuation : Valuation} {branch : Branch}
    (hrefused : branch.Refused model valuation) : branch.carriesBack = false := by
  obtain ⟨caller, wanted, rest, hframes, hnone, _⟩ := hrefused.refused
  rw [Branch.carriesBack, hframes]
  simp only [hnone, Option.isSome_none]

namespace Search

/-- Whether a search is at its end after so many steps, and every body that was
proved on the way had its values carried back. -/
def carriesBackWithin (limit : Option Nat) : Nat → Search → Bool
  | 0, search => search.machine.current.isNone && search.machine.choices.isEmpty
  | steps + 1, search =>
      search.machine.current.all Branch.carriesBack &&
        carriesBackWithin limit steps (search.advance limit)

theorem advance_of_ended {limit : Option Nat} {search : Search}
    (hended : search.machine = ⟨none, []⟩) : (search.advance limit).machine = ⟨none, []⟩ := by
  rw [advance, hended]
  rfl

theorem iterate_of_ended {limit : Option Nat} {search : Search}
    (hended : search.machine = ⟨none, []⟩) (steps : Nat) :
    ((advance limit)^[steps] search).machine = ⟨none, []⟩ := by
  induction steps with
  | zero => exact hended
  | succ steps ih =>
      rw [Function.iterate_succ_apply']
      exact advance_of_ended ih

/-- A run decides that a search refuses nothing. -/
theorem not_refuses_of_carriesBackWithin {limit : Option Nat} {model : Set Tree} {goals : Query}
    {valuation : Valuation} {search : Search} {steps : Nat}
    (hcarries : search.carriesBackWithin limit steps = true) :
    ¬ search.Refuses limit model goals valuation := by
  rintro ⟨place, branch, hbranch, extended, _, hrefused⟩
  induction steps generalizing search place with
  | zero =>
      obtain ⟨hcurrent, hchoices⟩ := Bool.and_eq_true_iff.mp hcarries
      have hended : search.machine = ⟨none, []⟩ := by
        obtain ⟨env, nextFresh, ⟨current, choices⟩, failure⟩ := search
        exact congrArg₂ Machine.mk (Option.isNone_iff_eq_none.mp hcurrent)
          (List.isEmpty_iff.mp hchoices)
      rw [iterate_of_ended hended] at hbranch
      cases hbranch
  | succ steps ih =>
      obtain ⟨hhere, hlater⟩ := Bool.and_eq_true_iff.mp hcarries
      cases place with
      | zero =>
          have hkept : branch.carriesBack = true := by
            rwa [show search.machine.current = some branch from hbranch] at hhere
          rw [hrefused.carriesBack] at hkept
          cases hkept
      | succ place => exact ih hlater place hbranch

end Search

/-- The query `?- r(A, b).` has an answer for `A = b`, since its search refuses
nothing. -/
theorem link_search_covers :
    let valuation : Valuation := fun _ => .text "b"
    Query.Holds (leastModel linkProgram) valuation linkQuery ∧ ∃ observations final,
      Search.Drains linkEngine.resolver.maxDepth (linkEngine.searchFor linkQuery)
        observations final ∧
      ∃ answer, .answer answer ∈ observations ∧ ∃ extended : Valuation,
        (∀ name ∈ Query.occurrences linkQuery, extended name = valuation name) ∧
          extended.Satisfies answer := by
  intro valuation
  have hgoals : Query.Logical linkQuery := by
    intro goal hgoal
    rw [List.mem_singleton.mp hgoal]
    exact Goal.logical_of_user rfl
  have hnames : ∀ name ∈ Query.occurrences linkQuery, ∀ number : Nat,
      name ≠ freshStem ++ toString number := by
    intro name hname number
    rw [List.mem_singleton.mp (show name ∈ ["A"] from hname)]
    exact ne_freshName (by decide) number
  have hholds : Query.Holds (leastModel linkProgram) valuation linkQuery := by
    refine List.forall_mem_singleton.mpr fun model hmodel => ?_
    have heq := hmodel (.fact ⟨"eq", [.var "X", .var "X"]⟩) (by simp [linkProgram]) valuation
    exact hmodel (.rule ⟨"r", [.var "X", .var "Y"]⟩ [.fact ⟨"eq", [.var "X", .var "Y"]⟩])
      (by simp [linkProgram]) valuation (List.forall_mem_singleton.mpr heq)
  obtain ⟨observations, final, hdrains⟩ := Search.exists_drains (show
    (linkEngine.searchFor linkQuery).endsWithin linkEngine.resolver.maxDepth 30 2 = true by
      decide +kernel)
  have hrefuses : ¬ (linkEngine.searchFor linkQuery).Refuses linkEngine.resolver.maxDepth
      (leastModel linkProgram) linkQuery valuation :=
    Search.not_refuses_of_carriesBackWithin (show
      (linkEngine.searchFor linkQuery).carriesBackWithin linkEngine.resolver.maxDepth 30 = true by
        decide +kernel)
  have hcovered := finite_search_covers_least_model linkEngine linkProgram linkQuery rfl rfl
    (fun clause => linkProgram_logical) hgoals hnames observations final hdrains valuation hholds
  exact ⟨hholds, observations, final, hdrains, hcovered.resolve_right hrefuses⟩

/-- A rule that gives its arguments values with variables of their own. -/
def boxesProgram : List Statement :=
  [.clause (.rule ⟨"p", [.fact "f" [.var "Z"], .fact "f" [.var "W"]]⟩ [.fact ⟨"true", []⟩])]

def boxesEngine : Engine :=
  (Engine.fresh none (.fresh none) .empty).insertAll boxesProgram

/-- Two values that can be made equal are not when they are carried back: the
query `?- X = Y, p(X, Y).` is true for `X = Y = f(a)` and has no answer. -/
theorem linked_boxes_are_refused :
    let goals : Query := [.fact ⟨"=", [.var "X", .var "Y"]⟩, .fact ⟨"p", [.var "X", .var "Y"]⟩]
    boxesEngine.env.theory = Theory.ofStatements boxesProgram ∧
    boxesEngine.resolver.maxDepth = none ∧
    (∀ clause, .clause clause ∈ boxesProgram → clause.Logical) ∧ Query.Logical goals ∧
    (∀ name ∈ Query.occurrences goals, ∀ number : Nat, name ≠ freshStem ++ toString number) ∧
    ∃ observations final,
      Search.Drains none (boxesEngine.searchFor goals) observations final ∧
      (∀ answer, .answer answer ∉ observations) ∧
      ∃ valuation : Valuation, Query.Holds (leastModel boxesProgram) valuation goals := by
  intro goals
  refine ⟨rfl, rfl, fun clause hclause => ?_, fun goal hgoal => ?_, fun name hname number => ?_, ?_⟩
  · obtain rfl := Statement.clause.inj (List.mem_singleton.mp hclause)
    refine List.forall_mem_singleton.mpr fun builtin hbuiltin => ?_
    rw [← Option.some.inj hbuiltin]
    exact trivial
  · simp only [goals, List.mem_cons, List.not_mem_nil, or_false] at hgoal
    rcases hgoal with rfl | rfl
    · intro builtin hbuiltin
      rw [← Option.some.inj hbuiltin]
      exact trivial
    · exact Goal.logical_of_user rfl
  · have hletter : name ∈ ["X", "Y", "X", "Y"] := hname
    simp only [List.mem_cons, List.not_mem_nil, or_false] at hletter
    rcases hletter with rfl | rfl | rfl | rfl <;> exact ne_freshName (by decide) number
  · have hends : (match ((boxesEngine.searchFor goals).pullUpTo none 30).2 with
        | .exhausted => true
        | _ => false) = true := by decide +kernel
    cases hpull : (boxesEngine.searchFor goals).pullUpTo none 30 with
    | mk final pull =>
        rw [hpull] at hends
        cases pull with
        | answer found => cases hends
        | unfinished => cases hends
        | exhausted =>
            refine ⟨_, final, .exhausted 30 hpull, by simp, fun _ => .node "f" [.text "a"], ?_⟩
            refine List.forall_mem_cons.mpr ⟨rfl, List.forall_mem_singleton.mpr ?_⟩
            intro model hmodel
            exact hmodel _ List.mem_cons_self (fun _ => .text "a")
              (List.forall_mem_singleton.mpr trivial)

end Horn
