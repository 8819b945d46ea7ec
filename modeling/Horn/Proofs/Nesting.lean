/-
The depth of a proof.  Goals carry a number that says how many rules were
expanded to come to them; it counts the callers that wait below them, in every
continuation that a search holds.  So a limit on the one limits the other.
-/
import Horn.Proofs.Names

namespace Horn

def Frame.isProject : Frame → Bool
  | .project _ _ => true
  | .goals _ _ => false
  | .statements _ => false

/-- The number of callers that wait in some frames. -/
def waiting (frames : List Frame) : Nat :=
  frames.countP Frame.isProject

section Waiting

variable {rest : List Frame} {depth : Nat}

@[simp] theorem waiting_project {caller : Bindings} {wanted : List Var} :
    waiting (.project caller wanted :: rest) = waiting rest + 1 :=
  List.countP_cons_of_pos rfl

@[simp] theorem waiting_pushGoals (pending : Query) :
    waiting (pushGoals pending depth rest) = waiting rest := by
  cases pending <;> rfl

end Waiting

/-- A frame says how many callers wait below it.  A statement is resolved
outside of every rule. -/
def Frame.Fits (below : List Frame) : Frame → Prop
  | .goals _ depth => depth = waiting below
  | .statements _ => waiting below = 0
  | .project _ _ => True

/-- Each frame fits those below it. -/
def Aligned (frames : List Frame) : Prop :=
  ∀ frame below, frame :: below <:+ frames → frame.Fits below

theorem aligned_nil : Aligned [] := by
  intro frame below hsuffix
  exact absurd (List.suffix_nil.mp hsuffix) (List.cons_ne_nil frame below)

theorem aligned_cons {frame : Frame} {rest : List Frame} :
    Aligned (frame :: rest) ↔ frame.Fits rest ∧ Aligned rest := by
  constructor
  · intro haligned
    exact ⟨haligned frame rest (List.suffix_refl _),
      fun other below hsuffix => haligned other below (hsuffix.trans (List.suffix_cons frame rest))⟩
  · rintro ⟨hframe, hrest⟩ other below hsuffix
    rcases List.suffix_cons_iff.mp hsuffix with heq | hsuffix
    · obtain ⟨rfl, rfl⟩ := List.cons.inj heq
      exact hframe
    · exact hrest other below hsuffix

theorem aligned_pushGoals {pending : Query} {depth : Nat} {rest : List Frame}
    (hdepth : depth = waiting rest) (hrest : Aligned rest) :
    Aligned (pushGoals pending depth rest) := by
  cases pending with
  | nil => exact hrest
  | cons goal pending => exact aligned_cons.mpr ⟨hdepth, hrest⟩

/-- A continuation in which all depths agree with the frames, within a limit. -/
structure Nested (limit : Option Nat) (frames : List Frame) : Prop where
  aligned : Aligned frames
  limited : ∀ most, limit = some most → waiting frames ≤ most

section Steps

variable {limit : Option Nat} {rest : List Frame} {depth : Nat} {pending : Query}

theorem Nested.depth_eq (hnested : Nested limit (.goals pending depth :: rest)) :
    depth = waiting rest :=
  (aligned_cons.mp hnested.aligned).1

theorem Nested.tail {frame : Frame} (hnested : Nested limit (frame :: rest)) :
    Nested limit rest where
  aligned := (aligned_cons.mp hnested.aligned).2
  limited most hlimit :=
    (List.sublist_cons_self frame rest).countP_le.trans (hnested.limited most hlimit)

theorem Nested.goals (hdepth : depth = waiting rest) (hrest : Nested limit rest) :
    Nested limit (.goals pending depth :: rest) where
  aligned := aligned_cons.mpr ⟨hdepth, hrest.aligned⟩
  limited := hrest.limited

/-- The rest of a conjunction, whether or not there is one. -/
theorem Nested.pushGoals {more : Query} (hnested : Nested limit (.goals pending depth :: rest)) :
    Nested limit (pushGoals more depth rest) where
  aligned := aligned_pushGoals hnested.depth_eq hnested.tail.aligned
  limited most hlimit := by
    rw [waiting_pushGoals]
    exact hnested.limited most hlimit

/-- A rule's body is one deeper than its goal, and may be so only below the limit. -/
theorem Nested.body {caller : Bindings} {wanted : List Var} {goals body : Query}
    (hnested : Nested limit (.goals goals depth :: rest)) (hlimit : belowLimit limit depth = true) :
    Nested limit (.goals body (depth + 1) :: .project caller wanted :: rest) := by
  have hproject : Nested limit (.project caller wanted :: rest) := by
    refine ⟨aligned_cons.mpr ⟨trivial, hnested.tail.aligned⟩, ?_⟩
    rintro most rfl
    have hlt : depth < most := of_decide_eq_true hlimit
    rw [waiting_project, ← hnested.depth_eq]
    exact hlt
  exact hproject.goals (by rw [waiting_project, hnested.depth_eq])

/-- A fact leaves the rest of the goal's continuation; a rule puts its body and
the caller before it. -/
theorem Choice.frames_of_attempt {choice : Choice} {nextFresh later : Nat} {clause : Clause}
    {next : Branch} (hattempt : choice.attempt limit nextFresh clause = (later, some next)) :
    next.frames = choice.rest ∨ belowLimit limit choice.depth = true ∧
      ∃ body wanted, next.frames =
        .goals body (choice.depth + 1) :: .project choice.bindings wanted :: choice.rest := by
  cases clause with
  | fact stored =>
      rw [Choice.attempt_fact] at hattempt
      obtain ⟨_, _, rfl⟩ := Option.map_eq_some_iff.mp (Prod.mk.inj hattempt).2
      exact Or.inl rfl
  | rule head body =>
      cases hlimit : belowLimit limit choice.depth with
      | true =>
          rw [Choice.attempt_rule _ hlimit] at hattempt
          obtain ⟨_, _, rfl⟩ := Option.map_eq_some_iff.mp (Prod.mk.inj hattempt).2
          exact Or.inr ⟨rfl, _, _, rfl⟩
      | false =>
          rw [Choice.attempt_rule_of_limit _ hlimit] at hattempt
          cases (Prod.mk.inj hattempt).2

theorem Branch.Leads.nested {env : Environment} {nextFresh later : Nat} {branch next : Branch}
    (hleads : Branch.Leads env limit nextFresh later branch next)
    (hnested : Nested limit branch.frames) : Nested limit next.frames := by
  cases hleads with
  | done bindings depth rest => exact hnested.tail
  | assign hassigned => exact hnested.pushGoals
  | builtin hbuiltin hproved => exact hnested.pushGoals
  | select hgoal bindings pending depth rest =>
      exact hnested.pushGoals.goals (hnested.depth_eq.trans (waiting_pushGoals pending).symm)
  | @clause choice clause _ _ hattempt =>
      rcases Choice.frames_of_attempt hattempt with hframes | ⟨hlimit, body, wanted, hframes⟩
      · rw [hframes]
        exact hnested.tail
      · rw [hframes]
        exact hnested.body hlimit
  | finished bindings rest => exact hnested.tail
  | query bindings goals pending rest =>
      -- What follows is resolved outside of every rule, and so is this query.
      obtain ⟨houtside, haligned⟩ := aligned_cons.mp hnested.aligned
      refine Nested.goals houtside.symm ⟨aligned_cons.mpr ⟨houtside, haligned⟩, hnested.limited⟩
  | project hafter => exact hnested.tail

end Steps

/-- The machine at the start of a run. -/
inductive Machine.Opening : Machine → Prop
  | ofQuery (goals : Query) (bindings : Bindings) : Opening (.ofQuery goals bindings)
  | ofStatements (statements : List Statement) (bindings : Bindings) :
      Opening (.ofStatements statements bindings)

theorem Machine.Opening.nested {machine : Machine} (hopening : machine.Opening)
    (limit : Option Nat) : ∀ branch ∈ machine.branches, Nested limit branch.frames := by
  have hempty : Nested limit [] := ⟨aligned_nil, fun most _ => Nat.zero_le most⟩
  cases hopening with
  | ofQuery goals bindings => exact List.forall_mem_singleton.mpr (hempty.goals rfl)
  | ofStatements statements bindings =>
      exact List.forall_mem_singleton.mpr
        ⟨aligned_cons.mpr ⟨rfl, aligned_nil⟩, hempty.limited⟩

/-- What is left to prove on the branch at hand, and after each goal that has
clauses to be tried. -/
def Machine.continuations (machine : Machine) : List (List Frame) :=
  machine.current.toList.map Branch.frames ++ machine.choices.map Choice.rest

theorem Machine.nested_continuations {limit : Option Nat} {machine : Machine}
    (hnested : ∀ branch ∈ machine.branches, Nested limit branch.frames) :
    ∀ frames ∈ machine.continuations, Nested limit frames := by
  intro frames hframes
  rcases List.mem_append.mp hframes with hcurrent | hchoice
  · obtain ⟨branch, hbranch, rfl⟩ := List.mem_map.mp hcurrent
    exact hnested branch (List.mem_append_left _ hbranch)
  · obtain ⟨choice, hmem, rfl⟩ := List.mem_map.mp hchoice
    exact (hnested choice.branch (mem_branches_of_choice hmem)).tail

/-- In every state that a search comes to, the depth of goals is the number of
callers that wait below them, in the continuation at hand and in those of all
choices; a choice carries the depth of its goal.  No continuation holds more
callers than the limit allows. -/
theorem depth_counts_waiting_callers (limit : Option Nat) (start search : Search)
    (hstart : start.machine.Opening) (hsearch : Search.Reaches limit start search) :
    (∀ frames ∈ search.machine.continuations,
      (∀ pending depth below, .goals pending depth :: below <:+ frames → depth = waiting below) ∧
      ∀ most, limit = some most → waiting frames ≤ most) ∧
    ∀ choice ∈ search.machine.choices, choice.depth = waiting choice.rest := by
  have hnested : ∀ branch ∈ search.machine.branches, Nested limit branch.frames :=
    hsearch.invariant (hstart.nested limit) fun _ _ _ _ _ hbranch hleads => hleads.nested hbranch
  constructor
  · intro frames hframes
    have hframes := Machine.nested_continuations hnested frames hframes
    exact ⟨fun pending depth below hsuffix => hframes.aligned _ below hsuffix, hframes.limited⟩
  · intro choice hchoice
    exact (hnested choice.branch (Machine.mem_branches_of_choice hchoice)).depth_eq

/-- The program `p(X) :- q(X). q(X) :- p(X).` under a limit of one rule: after four
steps the goal of the first rule's body has one caller that waits, and the second
rule was passed over. -/
theorem mutual_rules_within_limit :
    let program : List Statement :=
      [.clause (.rule ⟨"p", [.var "X"]⟩ [.fact ⟨"q", [.var "X"]⟩]),
        .clause (.rule ⟨"q", [.var "X"]⟩ [.fact ⟨"p", [.var "X"]⟩])]
    let env : Environment := ⟨Theory.ofStatements program, .fresh none, .empty⟩
    let start : Search := ⟨env, 0, .ofQuery [.fact ⟨"p", [.var "X"]⟩] .empty, none⟩
    let search := (Search.pullUpTo (some 1) 4 start).1
    start.machine.Opening ∧ Search.Reaches (some 1) start search ∧
    (∀ frames ∈ search.machine.continuations,
      (∀ pending depth below, .goals pending depth :: below <:+ frames → depth = waiting below) ∧
      waiting frames ≤ 1) ∧
    (∀ choice ∈ search.machine.choices, choice.depth = waiting choice.rest) ∧
    search.machine.continuations.map waiting = [1, 0] := by
  intro program env start search
  have hopening : start.machine.Opening := .ofQuery _ _
  have hreaches : Search.Reaches (some 1) start search := Search.Reaches.refl.pullUpTo 4
  obtain ⟨hframes, hchoices⟩ :=
    depth_counts_waiting_callers (some 1) start search hopening hreaches
  refine ⟨hopening, hreaches, fun frames hmem => ?_, hchoices, by decide +kernel⟩
  obtain ⟨hdepths, hlimited⟩ := hframes frames hmem
  exact ⟨hdepths, hlimited 1 rfl⟩

end Horn
