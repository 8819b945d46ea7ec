/-
Soundness of answers.  An answer makes the query true in the least model of the
program for every assignment that also fits what the bodies of rules were
proved on.  The answer alone says enough where nothing was lost in carrying the
values of a body back to its caller; a body may equate two variables that are
left without a value, and that is lost.
-/
import Horn.Proofs.Answers
import Horn.Proofs.Branches

namespace Horn

/-- Nothing is lost among some assignments: one that fits the caller's
substitution afterwards gives the wanted variables the values they have in one
that fits the body's substitution. -/
def Handback.Lossless (among : Set Valuation) (handback : Handback) : Prop :=
  ∀ outer ∈ among, outer.Satisfies handback.after →
    ∃ inner ∈ among, inner.Satisfies handback.found ∧
      ∀ name ∈ handback.wanted, outer name = inner name

/-- Values without variables are carried back as they are. -/
theorem lossless_of_isGround {found caller after : Bindings} {wanted : List Var}
    (hfound : found.Acyclic)
    (hvalues : ∀ name ∈ wanted,
      (found.value name).Plain ∧ (found.value name).isGround = true)
    (hcaller : caller.Acyclic) (hwithin : caller.Within Term.Plain)
    (hopen : ∀ name ∈ wanted, caller.Open name)
    (hafter : project found wanted caller = some after) :
    Handback.Lossless Set.univ ⟨found, wanted, after⟩ := by
  intro outer _ houter
  obtain ⟨inner, hinner, _⟩ := hfound.exists_satisfies outer
  refine ⟨inner, Set.mem_univ inner, hinner, fun name hname => ?_⟩
  have hextension := (project_settles hvalues hcaller hwithin hopen).1 after hafter
  have hfree := Term.isGround_iff.mp (hvalues name hname).2
  calc outer name
      = (found.value name).eval outer :=
        ((hextension.satisfies_iff outer).mp houter).2 name hname
    _ = (found.value name).eval inner :=
        (Term.eval_eq_iff _ _ _).mpr fun other hother => absurd hother (hfree other)
    _ = inner name := hinner.eval_value name

/-- The goals that are left hold, each in the frame it belongs to.  The
assignment of a body agrees with its caller's on the variables whose values are
wanted, and the last caller's is the one of the query. -/
def Supports (model : Set Tree) (among : Set Valuation) (query : Valuation) :
    List Frame → Valuation → Prop
  | [], valuation => valuation = query
  | .goals pending _ :: rest, valuation =>
      Query.Holds model valuation pending ∧ Supports model among query rest valuation
  | .statements _ :: _, _ => False
  | .project caller wanted :: rest, valuation =>
      ∃ outer ∈ among, outer.Satisfies caller ∧ (∀ name ∈ wanted, outer name = valuation name) ∧
        Supports model among query rest outer

/-- An assignment fits the branch's substitution and makes true what is left. -/
def Branch.Supported (model : Set Tree) (among : Set Valuation) (query : Valuation)
    (branch : Branch) : Prop :=
  ∃ valuation ∈ among, valuation.Satisfies branch.bindings ∧
    Supports model among query branch.frames valuation

section Backwards

variable {env : Environment} {limit : Option Nat} {goals : Query} {model : Set Tree}
  {among : Set Valuation} {query : Valuation}

theorem holds_cons {valuation : Valuation} {goal : Goal} {pending : Query} :
    Query.Holds model valuation (goal :: pending) ↔
      goal.Holds model valuation ∧ Query.Holds model valuation pending :=
  List.forall_mem_cons

theorem supports_pushGoals {pending : Query} {depth : Nat} {rest : List Frame}
    {valuation : Valuation} :
    Supports model among query (pushGoals pending depth rest) valuation ↔
      Query.Holds model valuation pending ∧ Supports model among query rest valuation := by
  cases pending with
  | nil => simp [pushGoals, Query.Holds]
  | cons goal pending => exact Iff.rfl

/-- A goal that is proved, before the goals after it. -/
theorem supported_goal {bindings : Bindings} {goal : Goal} {pending : Query} {depth : Nat}
    {rest : List Frame} {valuation : Valuation} (hamong : valuation ∈ among)
    (hsatisfies : valuation.Satisfies bindings) (hgoal : goal.Holds model valuation)
    (hrest : Supports model among query (pushGoals pending depth rest) valuation) :
    Branch.Supported model among query ⟨bindings, .goals (goal :: pending) depth :: rest⟩ := by
  obtain ⟨hpending, hrest⟩ := supports_pushGoals.mp hrest
  exact ⟨valuation, hamong, hsatisfies, holds_cons.mpr ⟨hgoal, hpending⟩, hrest⟩

theorem Goal.holds_of_mem {goal : Fact} (huser : Builtin.ofFact? goal = none)
    {valuation : Valuation} (hmem : goal.toTerm.eval valuation ∈ model) :
    (Goal.fact goal).Holds model valuation := by
  rw [Holds, huser]
  exact hmem

/-- One move, read backwards: what supports the branch after it supports the
branch before it. -/
theorem Moves.supported (hmodel : env.theory.All (Clause.Holds model)) {branch next : Branch}
    {more : List Handback} (hmove : Moves env limit branch more next)
    (hregular : branch.Regular) (hlossless : ∀ handback ∈ more, handback.Lossless among)
    (hnext : next.Supported model among query) : branch.Supported model among query := by
  obtain ⟨hacyclic, hframes⟩ := hregular
  obtain ⟨valuation, hamong, hsatisfies, hrest⟩ := hnext
  cases hmove with
  | done bindings depth rest =>
      have hnothing : Query.Holds model valuation [] := by simp [Query.Holds]
      exact ⟨valuation, hamong, hsatisfies, hnothing, hrest⟩
  | builtin hbuiltin hproved =>
      obtain ⟨hgoals, _⟩ := List.forall_mem_cons.mp hframes
      obtain ⟨hgoal, _⟩ := List.forall_mem_cons.mp hgoals
      have hextension := (hgoal _ hbuiltin).extension hacyclic hproved
      obtain ⟨hbefore, htrue⟩ := (hextension.satisfies_iff valuation).mp hsatisfies
      refine supported_goal hamong hbefore ?_ hrest
      rw [Goal.Holds, hbuiltin]
      exact htrue
  | @clause bindings goal pending depth nextFresh rest clause untried _ huser hclause hattempt =>
      have hholds := hmodel _ _ hclause
      rcases Choice.attempt_eq_some hattempt with
        ⟨stored, image, found, rfl, hfound, rfl⟩ | ⟨head, body, image, initial, rfl, hinitial, rfl⟩
      · obtain ⟨hbefore, hequal⟩ :=
          ((unify_extension hacyclic hfound).satisfies_iff valuation).mp hsatisfies
        refine supported_goal hamong hbefore (Goal.holds_of_mem huser ?_) hrest
        rw [← hequal]
        exact hholds.rename image valuation
      · -- The body holds in its own frame, and its caller has the goal's values.
        obtain ⟨hbody, outer, houter, hcaller, hagree, hrest⟩ := hrest
        obtain ⟨_, hequal⟩ := ((unify_extension Bindings.acyclic_empty hinitial).satisfies_iff
          valuation).mp hsatisfies
        refine supported_goal houter hcaller (Goal.holds_of_mem huser ?_) hrest
        have hsame : (bindings.groundFact goal).toTerm.eval outer =
            (bindings.groundFact goal).toTerm.eval valuation :=
          (Term.eval_eq_iff _ _ _).mpr fun name hname =>
            hagree name (Fact.mem_variables.mpr hname)
        rw [← hcaller.eval_groundFact goal, hsame, ← hequal]
        exact hholds.rename image valuation hbody
  | @project found caller after wanted rest hafter =>
      obtain ⟨hcallerAcyclic, _⟩ := List.forall_mem_cons.mp hframes
      obtain ⟨_, hkeeps⟩ := Bindings.Acyclic.project hcallerAcyclic hafter
      obtain ⟨inner, hinner, hfound, hagree⟩ :=
        hlossless _ List.mem_cons_self valuation hamong hsatisfies
      exact ⟨inner, hinner, hfound, valuation, hamong, hsatisfies.of_keeps hkeeps, hagree, hrest⟩

/-- A whole run, read backwards from where it ends to the query. -/
theorem Derives.holds (hmodel : env.theory.All (Clause.Holds model))
    (hstore : env.theory.All Clause.Logical) (hgoals : Query.Logical goals)
    {handbacks : List Handback} {branch : Branch}
    (hderives : Derives env limit goals handbacks branch)
    (hlossless : ∀ handback ∈ handbacks, handback.Lossless among)
    (hbranch : branch.Supported model among query) : Query.Holds model query goals := by
  induction hderives with
  | start =>
      obtain ⟨valuation, _, _, hholds, rfl⟩ := hbranch
      exact hholds
  | move hearlier hmove ih =>
      obtain ⟨hbefore, hmore⟩ := List.forall_mem_append.mp hlossless
      exact ih hbefore (hmove.supported hmodel (hearlier.regular hstore hgoals) hmore hbranch)

/-- An answer makes the query true for every assignment of a class among which
nothing is lost. -/
theorem Derives.answer_holds (hmodel : env.theory.All (Clause.Holds model))
    (hstore : env.theory.All Clause.Logical) (hgoals : Query.Logical goals)
    {handbacks : List Handback} {answer : Bindings}
    (hderives : Derives env limit goals handbacks ⟨answer, []⟩)
    (hlossless : ∀ handback ∈ handbacks, handback.Lossless among)
    (hquery : query ∈ among) (hsatisfies : query.Satisfies answer) :
    Query.Holds model query goals :=
  hderives.holds hmodel hstore hgoals hlossless ⟨query, hquery, hsatisfies, rfl⟩

end Backwards

/-- Over a program on user predicates, equality, success and failure, every
answer to a query is the end of a branch, and makes the query true in the least
model for all assignments that also fit what was found by the bodies that were
proved on the way.  If nothing was lost in carrying those findings back, it
makes the query true for all assignments that fit the answer. -/
theorem answers_hold_in_least_model (engine : Engine) (program : List Statement) (goals : Query)
    (htheory : engine.env.theory = Theory.ofStatements program)
    (hprogram : ∀ clause, .clause clause ∈ program → clause.Logical)
    (hgoals : Query.Logical goals) (answer : Bindings)
    (hanswer : (engine.searchFor goals).Yields engine.resolver.maxDepth answer) :
    (∃ handbacks, Derives engine.env engine.resolver.maxDepth goals handbacks ⟨answer, []⟩) ∧
    ∀ handbacks, Derives engine.env engine.resolver.maxDepth goals handbacks ⟨answer, []⟩ →
      (∀ valuation : Valuation, valuation.Satisfies answer →
        (∀ handback ∈ handbacks, valuation.Satisfies handback.found) →
        Query.Holds (leastModel program) valuation goals) ∧
      ((∀ handback ∈ handbacks, handback.Lossless Set.univ) →
        ∀ valuation : Valuation, valuation.Satisfies answer →
          Query.Holds (leastModel program) valuation goals) := by
  have hmodel : engine.env.theory.All (Clause.Holds (leastModel program)) := by
    rw [htheory]
    exact holds_ofStatements (isLeast_leastModel program).1
  have hstore : engine.env.theory.All Clause.Logical := by
    rw [htheory]
    exact logical_ofStatements hprogram
  refine ⟨hanswer.derived hstore hgoals rfl (traced_ofQuery _ _ goals),
    fun handbacks hderives => ⟨fun valuation hsatisfies hfound => ?_,
      fun hlossless valuation hsatisfies => ?_⟩⟩
  · -- Among the assignments that fit all findings each one is its own witness.
    let among : Set Valuation :=
      { valuation | ∀ handback ∈ handbacks, valuation.Satisfies handback.found }
    have hlossless : ∀ handback ∈ handbacks, handback.Lossless among :=
      fun handback hmem outer houter _ => ⟨outer, houter, houter handback hmem, fun _ _ => rfl⟩
    exact hderives.answer_holds hmodel hstore hgoals hlossless hfound hsatisfies
  · exact hderives.answer_holds hmodel hstore hgoals hlossless (Set.mem_univ valuation) hsatisfies

/-- A rule that leaves it to its body to equate its arguments. -/
def linkProgram : List Statement :=
  [.clause (.fact ⟨"eq", [.var "X", .var "X"]⟩),
    .clause (.rule ⟨"r", [.var "X", .var "Y"]⟩ [.fact ⟨"eq", [.var "X", .var "Y"]⟩])]

def linkEngine : Engine :=
  (Engine.fresh none (.fresh none) .empty).insertAll linkProgram

theorem linkProgram_logical {clause : Clause} (hclause : .clause clause ∈ linkProgram) :
    clause.Logical := by
  simp only [linkProgram, List.mem_cons, Statement.clause.injEq, List.not_mem_nil,
    or_false] at hclause
  rcases hclause with rfl | rfl
  · exact trivial
  · intro goal hgoal
    rw [List.mem_singleton.mp hgoal]
    exact Goal.logical_of_user rfl

/-- `?- r(A, b).` -/
def linkQuery : Query := [.fact ⟨"r", [.var "A", .atom "b"]⟩]

def linkAnswer : Bindings := Bindings.empty.insert "A" (.atom "b")

/-- What the rule's head gives for `?- r(A, b).` -/
def linkHead : Bindings := (Bindings.empty.insert "A" (.var "_sf0")).insert "_sf1" (.atom "b")

/-- What the rule's body is proved on. -/
def linkFound : Bindings := (linkHead.insert "_sf0" (.var "_sf2")).insert "_sf2" (.atom "b")

/-- What is left of `?- r(A, b).` in the rule's body. -/
def linkBody : Branch :=
  ⟨linkHead, [.goals [.fact ⟨"eq", [.var "_sf0", .var "_sf1"]⟩] 1, .project .empty ["A"]]⟩

/-- The rule for the goal, and the fact for the rule's body. -/
theorem linkFound_derived :
    Derives linkEngine.env none linkQuery [] ⟨linkFound, [.project .empty ["A"]]⟩ := by
  have hrule : Moves linkEngine.env none ⟨.empty, [.goals linkQuery 0]⟩ [] linkBody := by
    have hattempt : (Choice.attempt ⟨⟨"r", [.var "A", .atom "b"]⟩, .empty, [], 0, []⟩ none 0
        (.rule ⟨"r", [.var "_h1", .var "_h2"]⟩ [.fact ⟨"eq", [.var "_h1", .var "_h2"]⟩])).2 =
        some linkBody := rfl
    exact .clause rfl (List.mem_singleton_self _) hattempt
  have hfact : Moves linkEngine.env none linkBody [] ⟨linkFound, [.project .empty ["A"]]⟩ := by
    have hattempt : (Choice.attempt ⟨⟨"eq", [.var "_sf0", .var "_sf1"]⟩, linkHead,
        [.project .empty ["A"]], 1, []⟩ none 2 (.fact ⟨"eq", [.var "_h0", .var "_h0"]⟩)).2 =
        some ⟨linkFound, [.project .empty ["A"]]⟩ := rfl
    exact .clause rfl (List.mem_singleton_self _) hattempt
  exact (Derives.start.move hrule).move hfact

/-- The query `?- r(A, b).` has the answer that gives `A` the value `b`.  Its
derivation carries that value back whole, so the answer alone makes the query
true. -/
theorem link_answer_holds :
    (linkEngine.searchFor linkQuery).Yields linkEngine.resolver.maxDepth linkAnswer ∧
    ∃ handbacks, Derives linkEngine.env linkEngine.resolver.maxDepth linkQuery handbacks
        ⟨linkAnswer, []⟩ ∧
      handbacks ≠ [] ∧ (∀ handback ∈ handbacks, handback.Lossless Set.univ) ∧
      ∀ valuation : Valuation, valuation.Satisfies linkAnswer →
        Query.Holds (leastModel linkProgram) valuation linkQuery := by
  have hyields : (linkEngine.searchFor linkQuery).Yields linkEngine.resolver.maxDepth linkAnswer :=
    .first 30 rfl
  have hgoals : Query.Logical linkQuery :=
    List.forall_mem_singleton.mpr (Goal.logical_of_user rfl)
  have hafter : project linkFound ["A"] .empty = some linkAnswer := rfl
  have hderives : Derives linkEngine.env linkEngine.resolver.maxDepth linkQuery
      [⟨linkFound, ["A"], linkAnswer⟩] ⟨linkAnswer, []⟩ :=
    linkFound_derived.move (.project hafter)
  have hlossless : ∀ handback ∈ [Handback.mk linkFound ["A"] linkAnswer],
      handback.Lossless Set.univ := by
    have hregular := linkFound_derived.regular
      (logical_ofStatements fun clause => linkProgram_logical) hgoals
    have hvalue : (linkFound.value "A").Plain ∧ (linkFound.value "A").isGround = true := by
      rw [show linkFound.value "A" = .atom "b" from rfl]
      exact ⟨.atom (by decide), rfl⟩
    exact List.forall_mem_singleton.mpr (lossless_of_isGround hregular.acyclic
      (List.forall_mem_singleton.mpr hvalue) Bindings.acyclic_empty (Bindings.within_empty _)
      (List.forall_mem_singleton.mpr (Or.inl rfl)) hafter)
  exact ⟨hyields, _, hderives, List.cons_ne_nil _ _, hlossless, fun valuation hsatisfies =>
    ((answers_hold_in_least_model linkEngine linkProgram linkQuery rfl
      (fun clause => linkProgram_logical) hgoals linkAnswer hyields).2 _ hderives).2 hlossless
      valuation hsatisfies⟩

/-- Trees with two equal arguments make a model of the program. -/
theorem leastModel_linkProgram_subset : leastModel linkProgram ⊆
    { tree | ∃ functor argument, tree = .node functor [argument, argument] } := by
  apply (isLeast_leastModel linkProgram).2
  intro clause hclause
  simp only [linkProgram, List.mem_cons, Statement.clause.injEq, List.not_mem_nil,
    or_false] at hclause
  rcases hclause with rfl | rfl
  · intro valuation
    exact ⟨"eq", valuation "X", rfl⟩
  · intro valuation hbody
    obtain ⟨functor, argument, heq⟩ := hbody _ List.mem_cons_self
    have hsame : [valuation "X", valuation "Y"] = [argument, argument] := (Tree.node.inj heq).2
    exact ⟨"r", argument, congrArg (Tree.node "r") hsame⟩

theorem satisfies_of_texts {bindings : Bindings} {text : Var → String}
    (htexts : bindings.toList.all (fun entry => entry.2.text? = some (text entry.1)) = true) :
    Valuation.Satisfies (fun name => .text (text name)) bindings := by
  intro name term hget
  have hentry : (name, term) ∈ bindings.toList :=
    Std.ExtTreeMap.mem_toList_iff_getElem?_eq_some.mpr hget
  have htext := List.all_eq_true.mp htexts (name, term) hentry
  rw [decide_eq_true_eq] at htext
  cases term with
  | atom content =>
      rw [Term.eval]
      exact congrArg Tree.text (Option.some.inj htext).symm
  | str content =>
      rw [Term.eval]
      exact congrArg Tree.text (Option.some.inj htext).symm
  | _ => cases htext

/-- What the body of the rule found is lost: the query `?- r(A, B), A = a, B = b.`
has an answer, and there is an assignment that fits it and for which `r(A, B)`
is false. -/
theorem link_is_lost :
    let goals : Query := [.fact ⟨"r", [.var "A", .var "B"]⟩,
      .fact ⟨"=", [.var "A", .atom "a"]⟩, .fact ⟨"=", [.var "B", .atom "b"]⟩]
    linkEngine.env.theory = Theory.ofStatements linkProgram ∧
    (∀ clause, .clause clause ∈ linkProgram → clause.Logical) ∧ Query.Logical goals ∧
    (∀ name ∈ Query.occurrences goals, ∀ number : Nat, name ≠ freshStem ++ toString number) ∧
    ∃ answer, (linkEngine.searchFor goals).Yields linkEngine.resolver.maxDepth answer ∧
      ∃ valuation : Valuation, valuation.Satisfies answer ∧
        ¬ Query.Holds (leastModel linkProgram) valuation goals := by
  intro goals
  refine ⟨rfl, fun clause => linkProgram_logical, ?_, ?_, ?_⟩
  · intro goal hgoal
    simp only [goals, List.mem_cons, List.not_mem_nil, or_false] at hgoal
    rcases hgoal with rfl | rfl | rfl
    · exact Goal.logical_of_user rfl
    · intro builtin hbuiltin
      rw [← Option.some.inj hbuiltin]
      exact trivial
    · intro builtin hbuiltin
      rw [← Option.some.inj hbuiltin]
      exact trivial
  · intro name hname number
    have hletter : name ∈ ["A", "B", "A", "B"] := hname
    simp only [List.mem_cons, List.not_mem_nil, or_false] at hletter
    rcases hletter with rfl | rfl | rfl | rfl <;> exact ne_freshName (by decide) number
  · let text : Var → String := fun name => if name = "A" then "a" else "b"
    have hpull : ((linkEngine.searchFor goals).pullUpTo linkEngine.resolver.maxDepth 30).2.answers
        (fun answer => answer.toList.all fun entry => entry.2.text? = some (text entry.1)) =
          true := by decide +kernel
    obtain ⟨answer, hanswer, htexts⟩ := Search.exists_yields 30 hpull
    refine ⟨answer, hanswer, fun name => .text (text name), satisfies_of_texts htexts, ?_⟩
    intro hholds
    obtain ⟨functor, argument, heq⟩ :=
      leastModel_linkProgram_subset (hholds _ List.mem_cons_self)
    have hsame : [Tree.text "a", Tree.text "b"] = [argument, argument] := (Tree.node.inj heq).2
    have hargument : Tree.text "a" = Tree.text "b" :=
      (List.cons.inj hsame).1.trans (List.cons.inj (List.cons.inj hsame).2).1.symm
    exact absurd (Tree.text.inj hargument) (by decide)

end Horn
