/-
The states that a search comes to.  What a step can do to the branches of a
machine is said once; whatever the branches of a query keep through it holds in
every state, and so no substitution ever has a cycle and no answer loses an
entry that the search began with.
-/
import Horn.Proofs.Branches

namespace Horn

/-- The branch on which a choice was met: its goal comes first, then the rest. -/
def Choice.branch (choice : Choice) : Branch :=
  ⟨choice.bindings, .goals [.fact choice.goal] choice.depth :: choice.rest⟩

/-- The branch at hand and those to come back to. -/
def Machine.branches (machine : Machine) : List Branch :=
  machine.current.toList ++ machine.choices.map Choice.branch

/-- One branch leads to another in a step of a machine, which moves the supply of
fresh names on to `later`. -/
inductive Branch.Leads (env : Environment) (limit : Option Nat) (nextFresh : Nat) :
    Nat → Branch → Branch → Prop
  | done (bindings : Bindings) (depth : Nat) (rest : List Frame) :
      Leads env limit nextFresh nextFresh ⟨bindings, .goals [] depth :: rest⟩ ⟨bindings, rest⟩
  | assign {bindings found : Bindings} {target : Var} {value : Expr} {pending : Query}
      {depth : Nat} {rest : List Frame}
      (hassigned : assignValue bindings target value = some found) :
      Leads env limit nextFresh nextFresh
        ⟨bindings, .goals (.assign target value :: pending) depth :: rest⟩
        ⟨found, pushGoals pending depth rest⟩
  | builtin {bindings found : Bindings} {goal : Fact} {pending : Query} {depth : Nat}
      {rest : List Frame} {builtin : Builtin} (hbuiltin : Builtin.ofFact? goal = some builtin)
      (hproved : (builtin.prove env bindings).result = some found) :
      Leads env limit nextFresh nextFresh
        ⟨bindings, .goals (.fact goal :: pending) depth :: rest⟩
        ⟨found, pushGoals pending depth rest⟩
  | select {goal : Fact} (hgoal : Builtin.ofFact? goal = none) (bindings : Bindings)
      (pending : Query) (depth : Nat) (rest : List Frame) :
      Leads env limit nextFresh nextFresh
        ⟨bindings, .goals (.fact goal :: pending) depth :: rest⟩
        ⟨bindings, .goals [.fact goal] depth :: pushGoals pending depth rest⟩
  | clause {choice : Choice} {clause : Clause} {later : Nat} {next : Branch}
      (hattempt : choice.attempt limit nextFresh clause = (later, some next)) :
      Leads env limit nextFresh later choice.branch next
  | finished (bindings : Bindings) (rest : List Frame) :
      Leads env limit nextFresh nextFresh ⟨bindings, .statements [] :: rest⟩ ⟨bindings, rest⟩
  | query (bindings : Bindings) (goals : Query) (pending : List Statement) (rest : List Frame) :
      Leads env limit nextFresh nextFresh ⟨bindings, .statements (.query goals :: pending) :: rest⟩
        ⟨bindings, .goals goals 0 :: .statements pending :: rest⟩
  | project {found caller after : Bindings} {wanted : List Var} {rest : List Frame}
      (hafter : project found wanted caller = some after) :
      Leads env limit nextFresh nextFresh ⟨found, .project caller wanted :: rest⟩ ⟨after, rest⟩

/-- The machine that a step leaves. -/
def Outcome.machine : Outcome → Machine
  | .running machine => machine
  | .answer _ machine => machine
  | .exhausted => ⟨none, []⟩

namespace Machine

/-- A branch after a step was there before, or a branch that was there leads to it. -/
def Grows (env : Environment) (limit : Option Nat) (nextFresh : Nat) (before : Machine)
    (step : Step) : Prop :=
  ∀ branch ∈ step.outcome.machine.branches, branch ∈ before.branches ∨
    ∃ earlier ∈ before.branches,
      Branch.Leads env limit nextFresh step.nextFresh earlier branch

section Steps

variable {env : Environment} {limit : Option Nat} {nextFresh : Nat}

theorem mem_branches_of_choice {machine : Machine} {choice : Choice}
    (hchoice : choice ∈ machine.choices) : choice.branch ∈ machine.branches :=
  List.mem_append_right _ (List.mem_map_of_mem hchoice)

theorem mem_branches_of_current {machine : Machine} {branch : Branch}
    (hcurrent : machine.current = some branch) : branch ∈ machine.branches := by
  rw [branches, hcurrent]
  exact List.mem_append_left _ List.mem_cons_self

theorem grows_of_map {branch : Branch} {frames : List Frame} {choices : List Choice}
    {events : List Event} {result : Option Bindings}
    (hleads : ∀ found, result = some found →
      Branch.Leads env limit nextFresh nextFresh branch ⟨found, frames⟩) :
    Grows env limit nextFresh ⟨some branch, choices⟩
      ⟨events, nextFresh, .running ⟨result.map (⟨·, frames⟩), choices⟩⟩ := by
  intro next hnext
  rcases List.mem_append.mp hnext with hnext | hnext
  · obtain ⟨found, hfound, rfl⟩ := Option.map_eq_some_iff.mp (Option.mem_toList.mp hnext)
    exact Or.inr ⟨branch, mem_branches_of_current rfl, hleads found hfound⟩
  · exact Or.inl (List.mem_append_right _ hnext)

/-- A branch that moves on without a choice. -/
theorem grows_of_leads {branch next : Branch} {choices : List Choice}
    (hleads : Branch.Leads env limit nextFresh nextFresh branch next) :
    Grows env limit nextFresh ⟨some branch, choices⟩
      ⟨[], nextFresh, .running ⟨some next, choices⟩⟩ := by
  intro other hother
  rcases List.mem_cons.mp hother with rfl | hother
  · exact Or.inr ⟨branch, mem_branches_of_current rfl, hleads⟩
  · exact Or.inl (List.mem_append_right _ hother)

theorem grows_select {bindings : Bindings} {goal : Goal} {pending : Query} {depth : Nat}
    {rest : List Frame} {choices : List Choice} :
    Grows env limit nextFresh ⟨some ⟨bindings, .goals (goal :: pending) depth :: rest⟩, choices⟩
      (advance env nextFresh choices bindings (.goals (goal :: pending) depth :: rest)) := by
  cases goal with
  | assign target value => exact grows_of_map fun found hfound => .assign hfound
  | fact goal =>
      rw [advance, select]
      cases hbuiltin : Builtin.ofFact? goal with
      | some builtin => exact grows_of_map fun found hfound => .builtin hbuiltin hfound
      | none =>
          intro next hnext
          rcases List.mem_cons.mp hnext with rfl | hnext
          · exact Or.inr ⟨_, mem_branches_of_current rfl,
              .select hbuiltin bindings pending depth rest⟩
          · exact Or.inl (List.mem_append_right _ hnext)

theorem grows_advance (bindings : Bindings) (frames : List Frame) (choices : List Choice) :
    Grows env limit nextFresh ⟨some ⟨bindings, frames⟩, choices⟩
      (advance env nextFresh choices bindings frames) := by
  cases frames with
  | nil => exact fun _ hnext => Or.inl (List.mem_append_right _ hnext)
  | cons frame rest =>
      cases frame with
      | goals pending depth =>
          cases pending with
          | nil => exact grows_of_leads (.done bindings depth rest)
          | cons goal pending => exact grows_select
      | statements pending =>
          cases pending with
          | nil => exact grows_of_leads (.finished bindings rest)
          | cons statement pending =>
              cases statement with
              | clause clause => exact fun _ hnext => Or.inl (List.mem_append_right _ hnext)
              | query goals => exact grows_of_leads (.query bindings goals pending rest)
      | project caller wanted => exact grows_of_map fun found hfound => .project hfound

theorem grows_retry (choices : List Choice) :
    Grows env limit nextFresh ⟨none, choices⟩ (retry limit nextFresh choices) := by
  cases choices with
  | nil => exact fun _ hnext => Or.inl hnext
  | cons choice choices =>
      obtain ⟨goal, bindings, rest, depth, untried⟩ := choice
      cases untried with
      | nil => exact fun _ hnext => Or.inl (List.mem_cons_of_mem _ hnext)
      | cons clause untried =>
          intro next hnext
          rcases List.mem_append.mp hnext with hnext | hnext
          · have hattempt := Option.mem_toList.mp hnext
            exact Or.inr ⟨_, List.mem_cons_self, .clause (Prod.ext rfl hattempt)⟩
          · exact Or.inl hnext

/-- All that a step can do. -/
theorem grows_step (machine : Machine) :
    machine.Grows env limit nextFresh (machine.step env limit nextFresh) := by
  obtain ⟨current, choices⟩ := machine
  cases current with
  | none => exact grows_retry choices
  | some branch => exact grows_advance branch.bindings branch.frames choices

/-- An answer is a branch with nothing left to prove. -/
theorem current_of_answer {machine after : Machine} {found : Bindings}
    (hanswer : (machine.step env limit nextFresh).outcome = .answer found after) :
    machine.current = some ⟨found, []⟩ := by
  obtain ⟨current, choices⟩ := machine
  cases current with
  | none =>
      cases choices with
      | nil => cases hanswer
      | cons choice choices =>
          obtain ⟨goal, bindings, rest, depth, untried⟩ := choice
          cases untried <;> cases hanswer
  | some branch =>
      obtain ⟨bindings, frames⟩ := branch
      simp only [step] at hanswer
      rw [advance.eq_def] at hanswer
      split at hanswer
      · injection hanswer with hfound
        rw [hfound]
      all_goals cases hanswer

end Steps

end Machine

namespace Search

/-- The search after one step. -/
def advance (limit : Option Nat) (search : Search) : Search :=
  search.after (search.machine.step search.env limit search.nextFresh)
    (search.machine.step search.env limit search.nextFresh).outcome.machine

/-- The states that a search comes to.  Between two of its steps others may
change what it shares with them: the environment and the supply of names. -/
inductive Reaches (limit : Option Nat) (start : Search) : Search → Prop
  | refl : Reaches limit start start
  | step {search : Search} (hearlier : Reaches limit start search) :
      Reaches limit start (search.advance limit)
  | shared {search : Search} (hearlier : Reaches limit start search) (env : Environment)
      (nextFresh : Nat) : Reaches limit start { search with env, nextFresh }

/-- What every step keeps, pulling keeps. -/
theorem pullUpTo_of_advance {limit : Option Nat} {property : Search → Prop}
    (hadvance : ∀ search, property search → property (search.advance limit)) {search : Search}
    (hsearch : property search) (fuel : Nat) : property (search.pullUpTo limit fuel).1 := by
  induction fuel generalizing search with
  | zero => exact hsearch
  | succ fuel ih =>
      have hstep := hadvance search hsearch
      rw [Search.pullUpTo]
      rw [advance] at hstep
      cases houtcome : (search.machine.step search.env limit search.nextFresh).outcome with
      | running machine =>
          rw [houtcome] at hstep
          exact ih hstep
      | answer found machine =>
          rw [houtcome] at hstep
          exact hstep
      | exhausted =>
          rw [houtcome] at hstep
          exact hstep

/-- Pulling a search only takes steps. -/
theorem Reaches.pullUpTo {limit : Option Nat} {start search : Search}
    (hsearch : Reaches limit start search) (fuel : Nat) :
    Reaches limit start (search.pullUpTo limit fuel).1 :=
  pullUpTo_of_advance (fun _ hearlier => hearlier.step) hsearch fuel

/-- What all branches have at the start, and what a branch keeps in leading to
another, all branches have in every state. -/
theorem Reaches.invariant {limit : Option Nat} {start search : Search} {property : Branch → Prop}
    (hsearch : Reaches limit start search)
    (hstart : ∀ branch ∈ start.machine.branches, property branch)
    (hleads : ∀ env nextFresh later branch next, property branch →
      Branch.Leads env limit nextFresh later branch next → property next) :
    ∀ branch ∈ search.machine.branches, property branch := by
  induction hsearch with
  | refl => exact hstart
  | step _ ih =>
      intro branch hbranch
      rcases Machine.grows_step _ branch hbranch with hsame | ⟨earlier, hearlier, hnext⟩
      · exact ih branch hsame
      · exact hleads _ _ _ earlier branch (ih earlier hearlier) hnext
  | shared _ env nextFresh ih => exact ih

end Search

/-- The substitution to come back to in the end: the branch's own, or that of
the outermost caller. -/
def outermost (bindings : Bindings) : List Frame → Bindings
  | [] => bindings
  | .project caller _ :: rest => outermost caller rest
  | .goals _ _ :: rest => outermost bindings rest
  | .statements _ :: rest => outermost bindings rest

/-- The caller's substitution that a frame saves. -/
def Frame.caller? : Frame → Option Bindings
  | .project caller _ => some caller
  | .goals _ _ => none
  | .statements _ => none

/-- The substitution of a branch and those that its frames save. -/
def Branch.substitutions (branch : Branch) : List Bindings :=
  branch.bindings :: branch.frames.filterMap Frame.caller?

/-- The substitutions of the branch at hand and of those to come back to. -/
def Machine.substitutions (machine : Machine) : List Bindings :=
  machine.branches.flatMap Branch.substitutions

/-- No substitution has a cycle, and the one to come back to keeps all entries
of the first. -/
structure Branch.Intact (start : Bindings) (branch : Branch) : Prop where
  acyclic : ∀ bindings ∈ branch.substitutions, bindings.Acyclic
  keeps : start.Keeps (outermost branch.bindings branch.frames)

section Intact

variable {start bindings found : Bindings} {depth : Nat} {rest : List Frame}

theorem keeps_outermost (hkeeps : bindings.Keeps found)
    (hstart : start.Keeps (outermost bindings rest)) : start.Keeps (outermost found rest) := by
  induction rest with
  | nil => exact hstart.trans hkeeps
  | cons frame rest ih =>
      cases frame with
      | project caller wanted => exact hstart
      | goals pending depth => exact ih hstart
      | statements pending => exact ih hstart

theorem outermost_pushGoals (pending : Query) :
    outermost bindings (pushGoals pending depth rest) = outermost bindings rest := by
  cases pending <;> rfl

theorem callers_pushGoals (pending : Query) :
    (pushGoals pending depth rest).filterMap Frame.caller? = rest.filterMap Frame.caller? := by
  cases pending <;> rfl

theorem Branch.Intact.extend (hintact : Branch.Intact start ⟨bindings, rest⟩)
    (hacyclic : found.Acyclic) (hkeeps : bindings.Keeps found) :
    Branch.Intact start ⟨found, rest⟩ := by
  obtain ⟨_, hcallers⟩ := List.forall_mem_cons.mp hintact.acyclic
  exact ⟨List.forall_mem_cons.mpr ⟨hacyclic, hcallers⟩, keeps_outermost hkeeps hintact.keeps⟩

/-- Goals do not matter to the substitutions of a branch. -/
theorem Branch.Intact.of_goals {pending : Query} {more : List Goal}
    (hintact : Branch.Intact start ⟨bindings, .goals pending depth :: rest⟩) :
    Branch.Intact start ⟨bindings, pushGoals more depth rest⟩ := by
  constructor
  · rw [substitutions, callers_pushGoals]
    exact hintact.acyclic
  · rw [outermost_pushGoals]
    exact hintact.keeps

/-- What a goal of the engine finds is a unifier, or what it was proved under. -/
theorem Builtin.eq_or_of_prove {builtin : Builtin} {env : Environment}
    (hproved : (builtin.prove env bindings).result = some found) :
    (∃ left right, builtin = .unify left right ∧ Horn.unify left right bindings = some found) ∨
      found = bindings := by
  cases builtin with
  | unify left right => exact Or.inl ⟨left, right, rfl, hproved⟩
  | succeed => exact Or.inr (Option.some.inj hproved).symm
  | fail => cases hproved
  | write text =>
      simp only [prove, writeLine] at hproved
      split at hproved
      · exact Or.inr (Option.some.inj hproved).symm
      · cases hproved
  | assert added =>
      rw [prove, assertTerm] at hproved
      split at hproved
      · exact Or.inr (Option.some.inj hproved).symm
      · exact Or.inr (Option.some.inj hproved).symm
      · split at hproved
        · exact Or.inr (Option.some.inj hproved).symm
        · cases hproved
      · cases hproved
      · cases hproved

theorem Builtin.prove_keeps {builtin : Builtin} {env : Environment} (hacyclic : bindings.Acyclic)
    (hproved : (builtin.prove env bindings).result = some found) :
    found.Acyclic ∧ bindings.Keeps found := by
  rcases Builtin.eq_or_of_prove hproved with ⟨left, right, rfl, hunified⟩ | rfl
  · have hextension := unify_extension hacyclic hunified
    exact ⟨hextension.acyclic, hextension.keeps⟩
  · exact ⟨hacyclic, Bindings.Keeps.refl found⟩

/-- What an assignment finds is one more binding. -/
theorem bind?_of_assignValue {target : Var} {value : Expr}
    (hassigned : assignValue bindings target value = some found) :
    ∃ number : Float, bindings.bind? target (.num number) = some found := by
  rw [assignValue] at hassigned
  split at hassigned
  · split at hassigned
    · exact ⟨_, hassigned⟩
    · cases hassigned
  · cases hassigned

/-- One step of a branch: a unifier or an assignment extends its substitution, a
rule's body starts from a unifier of its own over the caller's frames, and
carrying its values back extends the caller's. -/
theorem Branch.Leads.intact {env : Environment} {limit : Option Nat} {nextFresh later : Nat}
    {branch next : Branch} (hleads : Branch.Leads env limit nextFresh later branch next)
    (hintact : branch.Intact start) : next.Intact start := by
  cases hleads with
  | done bindings depth rest => exact ⟨hintact.acyclic, hintact.keeps⟩
  | @assign bindings found target value pending depth rest hassigned =>
      obtain ⟨number, hbind⟩ := bind?_of_assignValue hassigned
      obtain ⟨hacyclic, hkeeps⟩ := (hintact.acyclic _ List.mem_cons_self).bind? hbind
      exact hintact.of_goals.extend hacyclic hkeeps
  | builtin _ hproved =>
      obtain ⟨hacyclic, hkeeps⟩ :=
        Builtin.prove_keeps (hintact.acyclic _ List.mem_cons_self) hproved
      exact hintact.of_goals.extend hacyclic hkeeps
  | select _ bindings pending depth rest =>
      have hrest : Branch.Intact start ⟨bindings, pushGoals pending depth rest⟩ := hintact.of_goals
      exact ⟨hrest.acyclic, hrest.keeps⟩
  | @clause choice clause later _ hattempt =>
      obtain ⟨goal, bindings, rest, depth, untried⟩ := choice
      have hrest : Branch.Intact start ⟨bindings, rest⟩ := ⟨hintact.acyclic, hintact.keeps⟩
      have hacyclic : bindings.Acyclic := hintact.acyclic _ List.mem_cons_self
      rcases Choice.attempt_eq_some (congrArg Prod.snd hattempt) with
        ⟨stored, image, found, rfl, hfound, rfl⟩ | ⟨head, body, image, initial, rfl, hinitial, rfl⟩
      · have hextension := unify_extension hacyclic hfound
        exact hrest.extend hextension.acyclic hextension.keeps
      · have hinitial := unify_extension Bindings.acyclic_empty hinitial
        exact ⟨List.forall_mem_cons.mpr ⟨hinitial.acyclic, hrest.acyclic⟩, hrest.keeps⟩
  | finished bindings rest => exact ⟨hintact.acyclic, hintact.keeps⟩
  | query bindings goals pending rest => exact ⟨hintact.acyclic, hintact.keeps⟩
  | @project found caller after wanted rest hafter =>
      obtain ⟨_, hcallers⟩ := List.forall_mem_cons.mp hintact.acyclic
      have hcaller : Branch.Intact start ⟨caller, rest⟩ := ⟨hcallers, hintact.keeps⟩
      obtain ⟨hacyclic, hkeeps⟩ :=
        Bindings.Acyclic.project (hcaller.acyclic _ List.mem_cons_self) hafter
      exact hcaller.extend hacyclic hkeeps

end Intact

/-- In every state that a search of a query comes to, no substitution has a
cycle: not that of the branch at hand, not those of the choices, and not those
that callers left in frames.  Every answer has all the entries that the search
was started with. -/
theorem reachable_substitutions_intact (env : Environment) (limit : Option Nat) (nextFresh : Nat)
    (goals : Query) (start : Bindings) (hstart : start.Acyclic) (search : Search)
    (hsearch : Search.Reaches limit ⟨env, nextFresh, .ofQuery goals start, none⟩ search) :
    (∀ bindings ∈ search.machine.substitutions, bindings.Acyclic) ∧
    ∀ found machine, (search.machine.step search.env limit search.nextFresh).outcome =
      .answer found machine → start.Keeps found := by
  have hintact : ∀ branch ∈ search.machine.branches, branch.Intact start := by
    refine hsearch.invariant (fun branch hbranch => ?_) fun _ _ _ _ _ hbranch hleads =>
      hleads.intact hbranch
    rw [List.mem_singleton.mp (show branch ∈ [⟨start, [.goals goals 0]⟩] from hbranch)]
    exact ⟨List.forall_mem_singleton.mpr hstart, Bindings.Keeps.refl start⟩
  constructor
  · intro bindings hbindings
    obtain ⟨branch, hbranch, hmem⟩ := List.mem_flatMap.mp hbindings
    exact (hintact branch hbranch).acyclic bindings hmem
  · intro found machine hanswer
    exact (hintact _ (Machine.mem_branches_of_current (Machine.current_of_answer hanswer))).keeps

/-- The query `?- assert(p(X)), p(Z).` under `X = f(Y)`, one step before its
answer: a clause has been stored on the way, and the answer still has the entry
for `X`. -/
theorem assert_leaves_substitutions_intact :
    let env : Environment := ⟨.empty, .fresh none, .empty⟩
    let goals : Query :=
      [.fact ⟨"assert", [.fact "p" [.var "X"]]⟩, .fact ⟨"p", [.var "Z"]⟩]
    let start := Bindings.empty.insert "X" (.fact "f" [.var "Y"])
    start.Acyclic ∧ ∃ search,
      Search.Reaches none ⟨env, 0, .ofQuery goals start, none⟩ search ∧
      search.env.theory.size = 1 ∧ (∀ bindings ∈ search.machine.substitutions, bindings.Acyclic) ∧
      ∃ found machine, (search.machine.step search.env none search.nextFresh).outcome =
        .answer found machine ∧ start.Keeps found := by
  intro env goals start
  have hacyclic : start.Acyclic := by
    apply Bindings.acyclic_empty.insert
    intro name hname hreaches
    have hname : name = "Y" := by simpa using hname
    have heq := Bindings.eq_of_reaches_of_unbound (Bindings.get?_empty name) hreaches
    rw [hname] at heq
    exact absurd heq (by decide)
  let search := (Search.pullUpTo none 3 ⟨env, 0, .ofQuery goals start, none⟩).1
  have hreaches : Search.Reaches none ⟨env, 0, .ofQuery goals start, none⟩ search :=
    Search.Reaches.refl.pullUpTo 3
  obtain ⟨hsubstitutions, hanswers⟩ :=
    reachable_substitutions_intact env none 0 goals start hacyclic search hreaches
  have hanswer : (match (search.machine.step search.env none search.nextFresh).outcome with
      | .answer _ _ => true
      | _ => false) = true := by decide +kernel
  refine ⟨hacyclic, search, hreaches, by decide +kernel, hsubstitutions, ?_⟩
  cases houtcome : (search.machine.step search.env none search.nextFresh).outcome with
  | answer found machine => exact ⟨found, machine, rfl, hanswers found machine houtcome⟩
  | running machine => simp [houtcome] at hanswer
  | exhausted => simp [houtcome] at hanswer

end Horn
