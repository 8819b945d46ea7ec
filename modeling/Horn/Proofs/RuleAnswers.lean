/-
What a call of a rule adds to the caller's substitution.  The caller lies saved
below the frames of the rule's body, and what comes back are values of variables
that the caller knows: no variable of a rule, nor of anything called on the way,
gets an entry.
-/
import Horn.Proofs.Names

namespace Horn

/-- A variable that a goal asks for, or the end of its chain, with a value that is
no variable. -/
structure NewEntry (caller : Bindings) (wanted : List Var) (key : Var) (term : Term) : Prop where
  unbound : caller.get? key = none
  led : ∃ name ∈ wanted, caller.dereference (.var name) = .var key
  valued : term.isVar = false

theorem NewEntry.of_tail {caller : Bindings} {name : Var} {wanted : List Var} {key : Var}
    {term : Term} (hentry : NewEntry caller wanted key term) :
    NewEntry caller (name :: wanted) key term := by
  obtain ⟨other, hother, hled⟩ := hentry.led
  exact ⟨hentry.unbound, ⟨other, List.mem_cons_of_mem _ hother, hled⟩, hentry.valued⟩

/-- What is new beside a value at the end of a wanted variable's chain was new
before, since a chain that goes on into the value ends in no variable. -/
theorem Bindings.Acyclic.newEntry_of_insert {caller : Bindings} (hacyclic : caller.Acyclic)
    {name root : Var} (hroot : caller.dereference (.var name) = .var root) {value : Term}
    (hvalue : value.isVar = false) (hinserted : (caller.insert root value).Acyclic)
    {wanted : List Var} {key : Var} {term : Term}
    (hentry : (caller.insert root value).get? key = some term ∨
      NewEntry (caller.insert root value) wanted key term) :
    caller.get? key = some term ∨ NewEntry caller (name :: wanted) key term := by
  have hunbound := hacyclic.unbound_of_dereference hroot
  rcases hentry with hget | hnew
  · rw [caller.get?_insert root key value] at hget
    split at hget
    · next hkey =>
        obtain rfl := Option.some.inj hget
        exact Or.inr ⟨hkey ▸ hunbound, ⟨name, List.mem_cons_self, hkey ▸ hroot⟩, hvalue⟩
    · exact Or.inl hget
  · obtain ⟨other, hother, hled⟩ := hnew.led
    obtain ⟨hinto, hleft⟩ := hacyclic.dereference_insert hunbound hinserted other
    have hkey : caller.dereference (.var other) = .var key := by
      by_cases hend : caller.dereference (.var other) = .var root
      · rw [hinto hend, Bindings.dereference_of_not_isVar _ hvalue] at hled
        rw [hled] at hvalue
        cases hvalue
      · rwa [hleft hend] at hled
    exact Or.inr ⟨hacyclic.unbound_of_dereference hkey,
      ⟨other, List.mem_cons_of_mem _ hother, hkey⟩, hnew.valued⟩

/-- Carrying values back adds entries only where chains of wanted variables end. -/
theorem Bindings.Acyclic.newEntry_of_project {found caller after : Bindings}
    (hacyclic : caller.Acyclic) {wanted : List Var}
    (hafter : Horn.project found wanted caller = some after) {key : Var} {term : Term}
    (hget : after.get? key = some term) :
    caller.get? key = some term ∨ NewEntry caller wanted key term := by
  induction wanted generalizing caller with
  | nil =>
      rw [Horn.project, Option.some.injEq] at hafter
      exact Or.inl (hafter ▸ hget)
  | cons name wanted ih =>
      rw [Horn.project] at hafter
      split at hafter
      · exact (ih hacyclic hafter).imp_right .of_tail
      · next hvalue =>
          rw [Bool.not_eq_true] at hvalue
          split at hafter
          · next extended hextended =>
              have hacyclic' := (hacyclic.bind? hextended).1
              rcases Bindings.eq_or_of_bind? hextended with rfl | ⟨root, hroot, _, rfl⟩
              · exact (ih hacyclic hafter).imp_right .of_tail
              · exact hacyclic.newEntry_of_insert hroot hvalue hacyclic' (ih hacyclic' hafter)
          · cases hafter

section Calls

variable (goal : Fact) (caller : Bindings)

/-- The frame in which a caller waits for the values of a goal's variables. -/
def callerFrame : Frame :=
  .project caller (caller.groundFact goal).variables

/-- A branch of the proof of a goal by rules: the caller waits below all frames, or
the values are back. -/
inductive Branch.Called : Branch → Prop
  | body (bindings : Bindings) (frames : List Frame) :
      Called ⟨bindings, frames ++ [callerFrame goal caller]⟩
  | back {found after : Bindings}
      (hafter : project found (caller.groundFact goal).variables caller = some after) :
      Called ⟨after, []⟩

/-- A choice of that proof: one of the goal itself is among rules only. -/
inductive Choice.Called : Choice → Prop
  | own (depth : Nat) {untried : List Clause}
      (hrules : ∀ clause ∈ untried, ∃ head body, clause = .rule head body) :
      Called ⟨goal, caller, [], depth, untried⟩
  | body (inner : Fact) (bindings : Bindings) (frames : List Frame) (depth : Nat)
      (untried : List Clause) :
      Called ⟨inner, bindings, frames ++ [callerFrame goal caller], depth, untried⟩

structure Machine.Called (machine : Machine) : Prop where
  current : ∀ branch, machine.current = some branch → branch.Called goal caller
  choices : ∀ choice ∈ machine.choices, choice.Called goal caller

end Calls

section Steps

variable {goal : Fact} {caller : Bindings} {env : Environment} {limit : Option Nat}
  {nextFresh : Nat}

theorem pushGoals_append (pending : Query) (depth : Nat) (frames below : List Frame) :
    pushGoals pending depth (frames ++ below) = pushGoals pending depth frames ++ below := by
  cases pending <;> rfl

/-- The branch that a step goes on with, if the choices stay. -/
theorem Machine.called_of_map {choices : List Choice} {frames : List Frame}
    {result : Option Bindings} (hchoices : ∀ choice ∈ choices, choice.Called goal caller)
    (hbranch : ∀ found, result = some found → Branch.Called goal caller ⟨found, frames⟩) :
    Machine.Called goal caller ⟨result.map (⟨·, frames⟩), choices⟩ := by
  refine ⟨fun branch hcurrent => ?_, hchoices⟩
  obtain ⟨found, hfound, rfl⟩ := Option.map_eq_some_iff.mp hcurrent
  exact hbranch found hfound

theorem Machine.called_select {bindings : Bindings} {frames : List Frame} {depth : Nat}
    {choices : List Choice} (hchoices : ∀ choice ∈ choices, choice.Called goal caller)
    (next : Goal) :
    (select env choices bindings (frames ++ [callerFrame goal caller]) depth next).2.Called
      goal caller := by
  cases next with
  | assign target value => exact called_of_map hchoices fun found _ => .body found frames
  | fact inner =>
      rw [select]
      split
      · exact called_of_map hchoices fun found _ => .body found frames
      · exact ⟨fun _ hcurrent => (by cases hcurrent),
          List.forall_mem_cons.mpr ⟨.body inner bindings frames depth _, hchoices⟩⟩

theorem Machine.called_advance {branch : Branch} {choices : List Choice}
    (hbranch : branch.Called goal caller)
    (hchoices : ∀ choice ∈ choices, choice.Called goal caller) :
    (advance env nextFresh choices branch.bindings branch.frames).outcome.machine.Called
      goal caller := by
  have hnone : Machine.Called goal caller ⟨none, choices⟩ :=
    ⟨fun _ hcurrent => (by cases hcurrent), hchoices⟩
  have hnext : ∀ bindings frames, Machine.Called goal caller
      ⟨some ⟨bindings, frames ++ [callerFrame goal caller]⟩, choices⟩ := by
    intro bindings frames
    exact ⟨fun _ hcurrent => Option.some.inj hcurrent ▸ .body bindings frames, hchoices⟩
  cases hbranch with
  | back _ => exact hnone
  | body bindings frames =>
      cases frames with
      | nil => exact called_of_map hchoices fun after hafter => .back hafter
      | cons frame frames =>
          cases frame with
          | goals pending depth =>
              cases pending with
              | nil => exact hnext bindings frames
              | cons next pending =>
                  simp only [List.cons_append, advance, pushGoals_append]
                  exact called_select hchoices next
          | statements pending =>
              cases pending with
              | nil => exact hnext bindings frames
              | cons statement pending =>
                  cases statement with
                  | clause clause => exact hnone
                  | query goals =>
                      exact hnext bindings (.goals goals 0 :: .statements pending :: frames)
          | project outer wanted =>
              exact called_of_map hchoices fun found _ => .body found frames

/-- A rule is tried with its caller's frame on top of what was there, or with that of
the goal itself. -/
theorem Choice.Called.attempt {choice : Choice} {clause : Clause} {untried : List Clause}
    (hchoice : choice.Called goal caller) (huntried : choice.untried = clause :: untried)
    {next : Branch} (hattempt : (choice.attempt limit nextFresh clause).2 = some next) :
    next.Called goal caller := by
  cases hchoice with
  | @own depth all hrules =>
      obtain rfl : all = clause :: untried := huntried
      obtain ⟨head, body, rfl⟩ := hrules clause List.mem_cons_self
      rcases Choice.attempt_eq_some hattempt with
        ⟨stored, _, _, hfact, _, _⟩ | ⟨_, body, image, initial, _, _, rfl⟩
      · cases hfact
      · exact .body initial [.goals (Query.rename image body) (depth + 1)]
  | body inner bindings frames depth _ =>
      rcases Choice.attempt_eq_some hattempt with
        ⟨_, _, found, _, _, rfl⟩ | ⟨_, body, image, initial, _, _, rfl⟩
      · exact .body found frames
      · exact .body initial (.goals (Query.rename image body) (depth + 1) ::
          .project bindings (bindings.groundFact inner).variables :: frames)

theorem Choice.Called.tail {choice : Choice} {clause : Clause} {untried : List Clause}
    (hchoice : choice.Called goal caller) (huntried : choice.untried = clause :: untried) :
    Choice.Called goal caller { choice with untried } := by
  cases hchoice with
  | @own depth all hrules =>
      obtain rfl : all = clause :: untried := huntried
      exact .own depth (List.forall_mem_cons.mp hrules).2
  | body inner bindings frames depth _ => exact .body inner bindings frames depth untried

theorem Machine.called_retry {choices : List Choice}
    (hchoices : ∀ choice ∈ choices, choice.Called goal caller) :
    (retry limit nextFresh choices).outcome.machine.Called goal caller := by
  cases choices with
  | nil => exact ⟨fun _ hcurrent => (by cases hcurrent), hchoices⟩
  | cons choice choices =>
      obtain ⟨hchoice, hchoices⟩ := List.forall_mem_cons.mp hchoices
      rw [retry]
      split
      · exact ⟨fun _ hcurrent => (by cases hcurrent), hchoices⟩
      · next clause untried huntried =>
          exact ⟨fun next hattempt => hchoice.attempt huntried hattempt,
            List.forall_mem_cons.mpr ⟨hchoice.tail huntried, hchoices⟩⟩

/-- Every step stays inside the proof of the goal. -/
theorem Machine.Called.step {machine : Machine} (hmachine : machine.Called goal caller) :
    (machine.step env limit nextFresh).outcome.machine.Called goal caller := by
  obtain ⟨current, choices⟩ := machine
  cases current with
  | none => exact called_retry hmachine.choices
  | some branch => exact called_advance (hmachine.current branch rfl) hmachine.choices

theorem Search.Reaches.called {start search : Search} (hsearch : Search.Reaches limit start search)
    (hstart : start.machine.Called goal caller) : search.machine.Called goal caller := by
  induction hsearch with
  | refl => exact hstart
  | step _ ih => exact ih.step
  | shared _ _ _ ih => exact ih

end Steps

/-- Every answer to a goal that only rules are stored for has all entries of the
caller as they were.  Each other entry is for an unbound variable at the end of the
chain of a variable that is left in the grounded goal, gives it a value that is no
variable, and is for none of the names in the copies of clauses that the search
makes. -/
theorem rule_answers_extend_caller (env : Environment) (limit : Option Nat) (nextFresh : Nat)
    (goal : Fact) (caller : Bindings) (hgoal : Builtin.ofFact? goal = none)
    (hrules : ∀ clause ∈ env.theory.lookup goal.signature, ∃ head body, clause = .rule head body)
    (hacyclic : caller.Acyclic) (hnames : goal.toTerm.Over (Older nextFresh))
    (hentries : caller.Within (Term.Over (Older nextFresh))) (search : Search)
    (hsearch : Search.Reaches limit
      (Search.advance limit ⟨env, nextFresh, .ofQuery [.fact goal] caller, none⟩) search)
    (found : Bindings) (machine : Machine)
    (hanswer : (search.machine.step search.env limit search.nextFresh).outcome =
      .answer found machine) :
    caller.Keeps found ∧ ∀ key term, found.get? key = some term →
      caller.get? key = some term ∨
        (caller.get? key = none ∧ term.isVar = false ∧
          (∃ name ∈ (caller.groundFact goal).variables,
            caller.dereference (.var name) = .var key) ∧
          ∀ (clause : Clause) (later : Nat), nextFresh ≤ later → ∀ name ∈ clause.occurrences,
            (clause.renameApart freshStem later).2.image name ≠ key) := by
  have hstart : (Search.advance limit
      ⟨env, nextFresh, .ofQuery [.fact goal] caller, none⟩).machine.Called goal caller := by
    have hselected : (Search.advance limit
        ⟨env, nextFresh, .ofQuery [.fact goal] caller, none⟩).machine =
          ⟨none, [⟨goal, caller, [], 0, env.theory.lookup goal.signature⟩]⟩ := by
      simp [Search.advance, Search.after, Machine.ofQuery, Machine.ofBranch, Machine.step,
        Machine.advance, Machine.select, hgoal, pushGoals, Outcome.machine]
    rw [hselected]
    exact ⟨fun _ hcurrent => (by cases hcurrent), List.forall_mem_singleton.mpr (.own 0 hrules)⟩
  have hcalled := (hsearch.called hstart).current _ (Machine.current_of_answer hanswer)
  obtain ⟨result, hafter⟩ : ∃ result,
      project result (caller.groundFact goal).variables caller = some found := by
    generalize hbranch : Branch.mk found [] = branch at hcalled
    cases hcalled with
    | body bindings frames => simp at hbranch
    | back hafter =>
        obtain ⟨rfl, _⟩ := Branch.mk.inj hbranch
        exact ⟨_, hafter⟩
  refine ⟨(hacyclic.project hafter).2, fun key term hget => ?_⟩
  refine (hacyclic.newEntry_of_project hafter hget).imp_right fun hnew => ?_
  obtain ⟨hunbound, ⟨name, hname, hled⟩, hvalued⟩ := hnew
  refine ⟨hunbound, hvalued, ⟨name, hname, hled⟩, fun clause later hlater source hsource heq => ?_⟩
  -- the key is a name of the goal or of the caller, and those of copies are later
  have hgrounded : (caller.groundFact goal).toTerm.Over (Older nextFresh) := by
    rw [Bindings.groundFact, Fact.toTerm_subst]
    exact hentries.ground (stable_over _) hnames
  have hold : (Term.var name).Over (Older nextFresh) :=
    Term.over_var (hgrounded name (Fact.mem_variables.mp hname))
  have hend := hentries.dereference hold
  rw [hled] at hend
  exact clause.not_older_image later hsource
    (heq ▸ (hend key (Term.mem_occurrences_var.mpr rfl)).mono hlater)

/-- The program `p(f(A)) :- q(A, B). q(a, g(C)) :- true.` -/
def pairProgram : List Statement :=
  [.clause (.rule ⟨"p", [.fact "f" [.var "A"]]⟩ [.fact ⟨"q", [.var "A", .var "B"]⟩]),
    .clause (.rule ⟨"q", [.atom "a", .fact "g" [.var "C"]]⟩ [.fact ⟨"true", []⟩])]

def pairEnv : Environment :=
  ⟨Theory.ofStatements pairProgram, .fresh none, .empty⟩

/-- The substitution `X = f(Z)`. -/
def nestedCaller : Bindings :=
  Bindings.empty.insert "X" (.fact "f" [.var "Z"])

theorem nestedCaller_acyclic : nestedCaller.Acyclic :=
  Bindings.acyclic_single (by decide)

theorem pairEnv_rules :
    ∀ clause ∈ pairEnv.theory.lookup ⟨"p", 1⟩, ∃ head body, clause = .rule head body := by
  have hall : (pairEnv.theory.lookup ⟨"p", 1⟩).all (fun clause =>
      match clause with
      | .rule _ _ => true
      | .fact _ => false) = true := by decide +kernel
  intro clause hclause
  have hclause := List.all_eq_true.mp hall clause hclause
  cases clause with
  | rule head body => exact ⟨head, body, rfl⟩
  | fact stored => cases hclause

/-- The search for `p(X)` under `X = f(Z)` comes to an answer that has a value for
`Z`. -/
theorem nestedCall_answers :
    ∃ search, Search.Reaches none
        (Search.advance none ⟨pairEnv, 0, .ofQuery [.fact ⟨"p", [.var "X"]⟩] nestedCaller, none⟩)
        search ∧
      ∃ found machine, (search.machine.step search.env none search.nextFresh).outcome =
        .answer found machine ∧ (found.get? "Z").isSome = true := by
  let start := Search.advance none
    ⟨pairEnv, 0, .ofQuery [.fact ⟨"p", [.var "X"]⟩] nestedCaller, none⟩
  let search := (Search.pullUpTo none 6 start).1
  refine ⟨search, Search.Reaches.refl.pullUpTo 6, ?_⟩
  have hanswer : (match (search.machine.step search.env none search.nextFresh).outcome with
      | .answer found _ => (found.get? "Z").isSome
      | _ => false) = true := by decide +kernel
  cases houtcome : (search.machine.step search.env none search.nextFresh).outcome with
  | answer found machine => exact ⟨found, machine, rfl, by simpa [houtcome] using hanswer⟩
  | running machine => simp [houtcome] at hanswer
  | exhausted => simp [houtcome] at hanswer

/-- The answer to `p(X)` under `X = f(Z)` has entries for `X` and `Z` only, though
three names were handed out for the copies of the rules. -/
theorem nested_call_extends_caller :
    nestedCaller.Acyclic ∧ ∃ search, Search.Reaches none
        (Search.advance none ⟨pairEnv, 0, .ofQuery [.fact ⟨"p", [.var "X"]⟩] nestedCaller, none⟩)
        search ∧
      ∃ found machine, (search.machine.step search.env none search.nextFresh).outcome =
        .answer found machine ∧ nestedCaller.Keeps found ∧
        ∀ key term, found.get? key = some term →
          nestedCaller.get? key = some term ∨ key = "Z" ∧ term.isVar = false := by
  have holder : ∀ name ∈ ["X", "Z"], Older 0 name := by
    intro name hname number heq
    refine absurd heq (ne_freshName ?_ number)
    rcases List.mem_pair.mp hname with rfl | rfl <;> decide
  have hX : (Term.var "X").Over (Older 0) := Term.over_var (holder "X" (by simp))
  have hnames : (Fact.toTerm ⟨"p", [.var "X"]⟩).Over (Older 0) := hX
  have hentries : nestedCaller.Within (Term.Over (Older 0)) :=
    (Bindings.within_empty _).insert hX (show (Term.fact "f" [.var "Z"]).Over (Older 0) from
      Term.over_var (holder "Z" (by simp)))
  obtain ⟨search, hsearch, found, machine, hanswer, _⟩ := nestedCall_answers
  obtain ⟨hkeeps, hentry⟩ := rule_answers_extend_caller pairEnv none 0 ⟨"p", [.var "X"]⟩
    nestedCaller rfl pairEnv_rules nestedCaller_acyclic hnames hentries search hsearch found machine
    hanswer
  refine ⟨nestedCaller_acyclic, search, hsearch, found, machine, hanswer, hkeeps, ?_⟩
  intro key term hget
  refine (hentry key term hget).imp_right fun hnew => ?_
  obtain ⟨_, hvalued, ⟨name, hname, hled⟩, _⟩ := hnew
  have hvariables : (nestedCaller.groundFact ⟨"p", [.var "X"]⟩).variables = ["Z"] := by
    decide +kernel
  rw [hvariables, List.mem_singleton] at hname
  have hunbound : nestedCaller.get? "Z" = none := by
    rw [nestedCaller, Bindings.get?_insert, if_neg (by decide), Bindings.get?_empty]
  rw [hname, Bindings.dereference_of_unbound hunbound] at hled
  exact ⟨(Term.var.inj hled).symm, hvalued⟩

/-- That answer binds a variable that no variable of the goal `p(X)` leads to: it
stands inside the value of `X`. -/
theorem variable_inside_value_is_bound :
    nestedCaller.Acyclic ∧ Builtin.ofFact? ⟨"p", [.var "X"]⟩ = none ∧
    (∀ clause ∈ pairEnv.theory.lookup ⟨"p", 1⟩, ∃ head body, clause = .rule head body) ∧
    ∃ search, Search.Reaches none
        (Search.advance none ⟨pairEnv, 0, .ofQuery [.fact ⟨"p", [.var "X"]⟩] nestedCaller, none⟩)
        search ∧
      ∃ found machine, (search.machine.step search.env none search.nextFresh).outcome =
        .answer found machine ∧
        ∃ term, found.get? "Z" = some term ∧ nestedCaller.get? "Z" ≠ some term ∧
          ∀ name ∈ Fact.variables ⟨"p", [.var "X"]⟩,
            nestedCaller.dereference (.var name) ≠ .var "Z" := by
  obtain ⟨search, hsearch, found, machine, hanswer, hsome⟩ := nestedCall_answers
  obtain ⟨term, hget⟩ := Option.isSome_iff_exists.mp hsome
  refine ⟨nestedCaller_acyclic, rfl, pairEnv_rules, search, hsearch, found, machine, hanswer,
    term, hget, ?_, ?_⟩
  · rw [nestedCaller, Bindings.get?_insert, if_neg (by decide), Bindings.get?_empty]
    simp
  · intro name hname heq
    obtain rfl : name = "X" := List.mem_singleton.mp (Fact.mem_variables.mp hname)
    have hbound : (nestedCaller.dereference (.var "X")).isVar = false := by decide +kernel
    rw [heq] at hbound
    cases hbound

end Horn
