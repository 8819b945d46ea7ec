/-
One query under two depth limits.  Under the larger limit the search tries rules
that are left out under the smaller one, and hands out fresh names on the way; so
the naming between the two grows with every clause that both take a copy of, and
each answer has a naming of its own.
-/
import Horn.Proofs.Hygiene
import Horn.Proofs.Lockstep

namespace Horn

/-- The names of copied variables. -/
def IsFresh (name : Var) : Prop :=
  ∃ number : Nat, name = freshStem ++ toString number

theorem IsFresh.spelled {name : Var} (hname : IsFresh name) : IsSpelled name := by
  obtain ⟨number, rfl⟩ := hname
  exact isSpelled_freshName number

section Extension

variable {naming : Naming IsFresh} {start start' : Nat} (clause : Clause)

/-- The names that a naming has, and those of a copy of a clause. -/
def Naming.withCopy (naming : Naming IsFresh) (clause : Clause) (start : Nat) : Set Var :=
  { name | name ∈ naming.source ∨ ∃ inner ∈ clause.occurrences,
    name = (clause.renameApart freshStem start).2.image inner }

theorem extendNames_image (names : Var → Var) (start start' : Nat) {inner : Var}
    (hinner : inner ∈ clause.occurrences) :
    extendNames names start start' ((clause.renameApart freshStem start).2.image inner) =
      (clause.renameApart freshStem start').2.image inner := by
  obtain ⟨place, _, himage⟩ := clause.exists_place freshStem hinner
  rw [himage, himage, extendNames_freshName]

theorem isFresh_image (start : Nat) {inner : Var} (hinner : inner ∈ clause.occurrences) :
    IsFresh ((clause.renameApart freshStem start).2.image inner) := by
  obtain ⟨place, _, himage⟩ := clause.exists_place freshStem hinner
  exact ⟨start + place, himage start⟩

/-- Where all names are older than the next fresh ones, copies of a clause on both
sides add names that correspond. -/
theorem exists_extension (holder : ∀ name ∈ naming.source, Older start name)
    (holder' : ∀ name ∈ naming.target, Older start' name) :
    ∃ larger : Naming IsFresh, larger.Extends naming ∧ larger.Copies clause start start' ∧
      larger.source = naming.withCopy clause start ∧
      larger.target = extendNames naming.toFun start start' '' naming.withCopy clause start := by
  have hsame : ∀ name ∈ naming.source,
      extendNames naming.toFun start start' name = naming.toFun name :=
    fun name hname => extendNames_of_older naming.toFun start' (holder name hname)
  have hinjective : Set.InjOn (extendNames naming.toFun start start')
      (naming.withCopy clause start) := by
    refine (injOn_extendNames hsame (fun name hname number heq =>
      absurd (holder' _ (naming.map_source' hname) _ heq) (by omega))
      fun first hfirst second hsecond => naming.toFun_injective hfirst hsecond).mono ?_
    rintro name (hname | ⟨inner, hinner, rfl⟩)
    · exact Or.inl hname
    · obtain ⟨place, _, himage⟩ := clause.exists_place freshStem hinner
      exact Or.inr ⟨place, himage start⟩
  have hmoves : ∀ name ∈ naming.withCopy clause start,
      IsFresh name ∧ IsFresh (extendNames naming.toFun start start' name) ∨
        extendNames naming.toFun start start' name = name ∧ Inert IsFresh name := by
    rintro name (hname | ⟨inner, hinner, rfl⟩)
    · rw [hsame name hname]
      exact naming.moves name hname
    · rw [extendNames_image clause naming.toFun start start' hinner]
      exact Or.inl ⟨isFresh_image clause start hinner, isFresh_image clause start' hinner⟩
  refine ⟨⟨hinjective.toPartialEquiv _ _, fun _ => IsFresh.spelled, hmoves⟩,
    ⟨fun _ hname => Or.inl hname, hsame⟩, fun inner hinner => ⟨Or.inr ⟨inner, hinner, rfl⟩, ?_⟩,
    rfl, rfl⟩
  exact extendNames_image clause naming.toFun start start' hinner

end Extension

/-- Two worlds with one store, in which all names so far are older than the next
fresh ones. -/
structure Separate (naming : Naming IsFresh) (theory : Theory) (world world' : World) : Prop where
  store : world.env.theory = theory
  store' : world'.env.theory = theory
  older : ∀ name ∈ naming.source, Older world.nextFresh name
  older' : ∀ name ∈ naming.target, Older world'.nextFresh name

section Separate

variable {naming : Naming IsFresh} {theory : Theory} {world world' : World}

theorem Separate.restrict {larger : Naming IsFresh}
    (hseparate : Separate larger theory world world') (hextends : larger.Extends naming) :
    Separate naming theory world world' where
  store := hseparate.store
  store' := hseparate.store'
  older name hname := hseparate.older name (hextends.source hname)
  older' name hname := hseparate.older' name (hextends.symm.source hname)

theorem Separate.copy (hseparate : Separate naming theory world world') (clause : Clause) :
    ∃ larger : Naming IsFresh, larger.Extends naming ∧
      larger.Copies clause world.nextFresh world'.nextFresh ∧
      Separate larger theory
        (world.spend (clause.renameApart freshStem world.nextFresh).2.used)
        (world'.spend (clause.renameApart freshStem world'.nextFresh).2.used) := by
  obtain ⟨larger, hextends, hcopies, hsource, htarget⟩ :=
    exists_extension clause hseparate.older hseparate.older'
  refine ⟨larger, hextends, hcopies, hseparate.store, hseparate.store', ?_, ?_⟩
  · rw [hsource]
    rintro name (hname | ⟨inner, hinner, rfl⟩)
    · exact (hseparate.older name hname).mono (Nat.le_add_right _ _)
    · exact clause.older_image _ hinner
  · rw [htarget]
    rintro _ ⟨name, hname | ⟨inner, hinner, rfl⟩, rfl⟩
    · rw [extendNames_of_older naming.toFun _ (hseparate.older name hname)]
      exact (hseparate.older' _ (naming.map_source' hname)).mono (Nat.le_add_right _ _)
    · rw [extendNames_image clause naming.toFun _ _ hinner]
      exact clause.older_image _ hinner

end Separate

/-- The second tries more rules, and names are added with each copy. -/
def raised (theory : Theory) : Pairing IsFresh theory where
  Abreast naming := Separate naming theory
  Grows larger naming := larger.Extends naming
  Skips := True
  grows_refl := .refl
  grows_trans := .trans
  extends_of_grows hextends := hextends
  store hseparate := ⟨hseparate.store, hseparate.store'⟩
  restrict hextends hseparate := hseparate.restrict hextends
  copy := Separate.copy
  skip _ hseparate hstore hlater :=
    ⟨hseparate.store, hstore, hseparate.older,
      fun name hname => (hseparate.older' name hname).mono hlater⟩

/-- The names of a query stay. -/
def queryNaming (goals : Query)
    (hnames : ∀ name ∈ Query.variables goals, Inert IsFresh name) : Naming IsFresh where
  toPartialEquiv := .ofSet { name | name ∈ Query.variables goals }
  spelled _ := IsFresh.spelled
  moves name hname := Or.inr ⟨rfl, hnames name hname⟩

/-- Two answers that give the query's variables the same values, up to a change of
the fresh names in them that leaves no two the same. -/
def SameUpToFresh (goals : Query) (answer answer' : Bindings) : Prop :=
  ∃ image : Var → Var,
    Set.InjOn image
      { other | ∃ name ∈ Query.variables goals, other ∈ (answer.value name).occurrences } ∧
    ∀ name ∈ Query.variables goals,
      (∀ other ∈ (answer.value name).occurrences,
        image other = other ∨ IsFresh other ∧ IsFresh (image other)) ∧
      answer'.value name = (answer.value name).rename image

theorem sameUpToFresh_of_mirrors {goals : Query}
    {hnames : ∀ name ∈ Query.variables goals, Inert IsFresh name} {larger : Naming IsFresh}
    (hextends : larger.Extends (queryNaming goals hnames)) {answer answer' : Bindings}
    (hmirrors : Mirrors larger answer answer') : SameUpToFresh goals answer answer' := by
  have hmem : ∀ name ∈ Query.variables goals, name ∈ larger.source :=
    fun name hname => hextends.source hname
  have hvalues : ∀ name ∈ Query.variables goals,
      ∀ other ∈ (answer.value name).occurrences, other ∈ larger.source := by
    intro name hname
    exact (hmirrors.there.within.value (Naming.stable_covers larger)
      (Naming.covers_var (hmem name hname))).2
  refine ⟨larger.toFun, ?_, fun name hname => ⟨fun other hother => ?_, ?_⟩⟩
  · rintro first ⟨name, hname, hfirst⟩ second ⟨name', hname', hsecond⟩
    exact larger.toFun_injective (hvalues name hname first hfirst)
      (hvalues name' hname' second hsecond)
  · exact (larger.moves other (hvalues name hname other hother)).symm.imp_left And.left
  · have hstays : larger.toFun name = name := hextends.agrees name hname
    have hvalue := hmirrors.value (hmem name hname)
    rwa [hstays] at hvalue

/-- All answers of the first engine are answers of the second, in the same order. -/
def KeepsAnswers (engine engine' : Engine) (goals : Query) : Prop :=
  ∃ (answers answers' kept : List Bindings) (final final' : Search),
    Search.Drains engine.resolver.maxDepth (engine.searchFor goals) (answers.map .answer) final ∧
    Search.Drains engine'.resolver.maxDepth (engine'.searchFor goals) (answers'.map .answer)
      final' ∧
    answers.Forall₂ (SameUpToFresh goals) kept ∧ kept.Sublist answers'

/-- Over a program without effects, in which no text can be taken for a fresh name,
raising the depth limit loses no answers of a query. -/
theorem raised_limit_keeps_answers (engine engine' : Engine) (program : List Statement)
    (goals : Query) (most most' : Nat)
    (htheory : engine.env.theory = Theory.ofStatements program)
    (htheory' : engine'.env.theory = Theory.ofStatements program)
    (hlimit : engine.resolver.maxDepth = some most)
    (hlimit' : engine'.resolver.maxDepth = some most') (hraised : most ≤ most')
    (hprogram : ∀ clause, .clause clause ∈ program → clause.Quiet ∧ clause.Clear IsFresh)
    (hgoals : ∀ goal ∈ goals, goal.Quiet ∧ goal.Clear IsFresh)
    (hnames : ∀ name ∈ Query.variables goals, Inert IsFresh name) :
    KeepsAnswers engine engine' goals := by
  have hstore : (Theory.ofStatements program).All
      fun clause => clause.Quiet ∧ clause.Clear IsFresh :=
    Theory.all_ofStatements fun clause hclause _ =>
      ⟨(hprogram clause hclause).1.rename _, (hprogram clause hclause).2.rename _⟩
  have htakes : ∀ goal ∈ goals, (queryNaming goals hnames).Takes goal := fun goal hgoal =>
    ⟨(hgoals goal hgoal).1, (hgoals goal hgoal).2, fun name hname =>
      List.mem_eraseDups.mpr (List.mem_flatMap.mpr ⟨goal, hgoal, hname⟩)⟩
  have holder : ∀ start, ∀ name ∈ Query.variables goals, Older start name := by
    intro start name hname number heq
    exact absurd ⟨number, heq⟩ ((hnames name hname).not_moved fun _ => IsFresh.spelled)
  have hpaired : (raised (Theory.ofStatements program)).Paired (queryNaming goals hnames)
      (runQuery most goals .empty)
      (runQuery most' (Query.rename (queryNaming goals hnames).toFun goals) .empty) :=
    Pairing.paired_runQuery hstore (Or.inr ⟨trivial, hraised⟩) htakes
  have hsame : Query.rename (queryNaming goals hnames).toFun goals = goals := goals.rename_id
  rw [hsame] at hpaired
  obtain ⟨answers, answers', hshown, hshown', ⟨kept, hkin, hsublist, _⟩, _⟩ := hpaired
    ⟨engine.env, engine.resolver.nextFresh, none⟩ ⟨engine'.env, engine'.resolver.nextFresh, none⟩
    ⟨htheory, htheory', holder _, holder _⟩
  have hdrains := drains_runQuery most goals .empty ⟨engine.env, engine.resolver.nextFresh, none⟩
  have hdrains' := drains_runQuery most' goals .empty
    ⟨engine'.env, engine'.resolver.nextFresh, none⟩
  rw [hshown, ← hlimit] at hdrains
  rw [hshown', ← hlimit'] at hdrains'
  refine ⟨answers, answers', kept, _, _, hdrains, hdrains', hkin.imp ?_, hsublist⟩
  rintro answer answer' ⟨larger, hextends, hmirrors⟩
  exact sameUpToFresh_of_mirrors hextends hmirrors

/-- An engine with a program and a depth limit. -/
def engineUnder (most : Nat) (program : List Statement) : Engine :=
  (Engine.fresh (some most) (.fresh none) .empty).insertAll program

/-- The program `s(A) :- s(A). s(g(W)).` -/
def nestedProgram : List Statement :=
  [.clause (.rule ⟨"s", [.var "A"]⟩ [.fact ⟨"s", [.var "A"]⟩]),
    .clause (.fact ⟨"s", [.fact "g" [.var "W"]]⟩)]

/-- With one level of rules the query `?- s(A).` has a second answer, and all fresh
names have other numbers. -/
theorem nested_answers_are_kept :
    ((runQuery 0 [.fact ⟨"s", [.var "A"]⟩] .empty
        ⟨(engineUnder 0 nestedProgram).env, 0, none⟩).1.length = 1 ∧
      (runQuery 1 [.fact ⟨"s", [.var "A"]⟩] .empty
        ⟨(engineUnder 1 nestedProgram).env, 0, none⟩).1.length = 2) ∧
    KeepsAnswers (engineUnder 0 nestedProgram) (engineUnder 1 nestedProgram)
      [.fact ⟨"s", [.var "A"]⟩] := by
  have hgoal : (Goal.fact ⟨"s", [.var "A"]⟩).Quiet ∧ (Goal.fact ⟨"s", [.var "A"]⟩).Clear IsFresh :=
    ⟨Goal.logical_of_user rfl, List.forall_mem_singleton.mpr (.var "A")⟩
  have hboxed : (Term.fact "g" [.var "W"]).Clear IsFresh :=
    .fact (inert_of_isIdentifier (fun _ => IsFresh.spelled) (by decide))
      (List.forall_mem_singleton.mpr (.var "W"))
  have hprogram : ∀ clause, .clause clause ∈ nestedProgram →
      clause.Quiet ∧ clause.Clear IsFresh := by
    intro clause hclause
    rcases List.mem_pair.mp hclause with heq | heq <;> obtain rfl := Statement.clause.inj heq
    · exact ⟨List.forall_mem_singleton.mpr hgoal.1,
        List.forall_mem_singleton.mpr (.var "A"), List.forall_mem_singleton.mpr hgoal.2⟩
    · exact ⟨trivial, List.forall_mem_singleton.mpr hboxed⟩
  refine ⟨by decide +kernel, raised_limit_keeps_answers _ _ nestedProgram _ 0 1 rfl rfl rfl rfl
    (by decide) hprogram (List.forall_mem_singleton.mpr hgoal) fun name hname => ?_⟩
  rw [List.mem_singleton.mp (show name ∈ ["A"] from hname)]
  refine inert_of_isVariableName (by decide) ?_
  rintro ⟨number, heq⟩
  exact ne_freshName (by decide) number heq

/-- The program `s(A) :- s(A). s(g(W)). p(X, Y, Z) :- X = Z, Y = g("_sf1"()).` -/
def lookalikeProgram : List Statement :=
  nestedProgram ++ [.clause (.rule ⟨"p", [.var "X", .var "Y", .var "Z"]⟩
    [.fact ⟨"=", [.var "X", .var "Z"]⟩,
      .fact ⟨"=", [.var "Y", .fact "g" [.fact "_sf1" []]]⟩])]

/-- The query `?- s(A), X = Y, p(X, Y, A).` -/
def lookalikeQuery : Query :=
  [.fact ⟨"s", [.var "A"]⟩, .fact ⟨"=", [.var "X", .var "Y"]⟩,
    .fact ⟨"p", [.var "X", .var "Y", .var "A"]⟩]

theorem KeepsAnswers.exists_answer {engine engine' : Engine} {goals : Query}
    (hkeeps : KeepsAnswers engine engine' goals) {observations observations' : List Observation}
    {final final' : Search}
    (hdrains : Search.Drains engine.resolver.maxDepth (engine.searchFor goals) observations final)
    (hdrains' : Search.Drains engine'.resolver.maxDepth (engine'.searchFor goals) observations'
      final') (hfound : ∃ answer, .answer answer ∈ observations) :
    ∃ answer, .answer answer ∈ observations' := by
  obtain ⟨answers, answers', kept, _, _, hfirst, hsecond, hsame, hsublist⟩ := hkeeps
  rw [(hdrains.unique hfirst).1] at hfound
  rw [(hdrains'.unique hsecond).1]
  obtain ⟨answer, hanswer⟩ := hfound
  cases hsame with
  | nil => cases hanswer
  | cons _ _ => exact ⟨_, List.mem_map_of_mem (hsublist.subset List.mem_cons_self)⟩

theorem Goal.quiet_unify (left right : Term) : (Goal.fact ⟨"=", [left, right]⟩).Quiet := by
  intro builtin hbuiltin
  obtain rfl : Builtin.unify left right = builtin := Option.some.inj hbuiltin
  exact trivial

theorem quiet_lookalikeProgram {clause : Clause}
    (hclause : .clause clause ∈ lookalikeProgram) : clause.Quiet := by
  simp only [lookalikeProgram, nestedProgram, List.cons_append, List.nil_append, List.mem_cons,
    Statement.clause.injEq, List.not_mem_nil, or_false] at hclause
  rcases hclause with rfl | rfl | rfl
  · exact List.forall_mem_singleton.mpr (Goal.logical_of_user rfl)
  · exact trivial
  · exact List.forall_mem_cons.mpr
      ⟨Goal.quiet_unify _ _, List.forall_mem_singleton.mpr (Goal.quiet_unify _ _)⟩

/-- Under the limit 1 the fresh name in `A` is spelled as the functor, and the two
terms `g(_sf1)` are taken for one; under the limit 2 the name is another, and the
answer is lost. -/
theorem text_is_taken_for_fresh_name :
    (∀ clause, .clause clause ∈ lookalikeProgram → clause.Quiet) ∧
      (∀ goal ∈ lookalikeQuery, goal.Quiet) ∧
      (∀ name ∈ Query.variables lookalikeQuery, ¬ LooksFresh name) ∧
      ¬ KeepsAnswers (engineUnder 1 lookalikeProgram) (engineUnder 2 lookalikeProgram)
        lookalikeQuery := by
  refine ⟨fun _ => quiet_lookalikeProgram, List.forall_mem_cons.mpr
    ⟨Goal.logical_of_user rfl, List.forall_mem_cons.mpr ⟨Goal.quiet_unify _ _,
      List.forall_mem_singleton.mpr (Goal.logical_of_user rfl)⟩⟩, fun name hname => ?_,
    fun hkeeps => ?_⟩
  · have hplain : ∀ letter ∈ Query.variables lookalikeQuery,
        letter.toList.take 3 ≠ freshStem.toList := by decide
    exact not_looksFresh (hplain name hname)
  · obtain ⟨_, _, hdrains, hfound⟩ := @exists_answer_of_run (engineUnder 1 lookalikeProgram)
      lookalikeQuery 1 rfl (by decide +kernel)
    obtain ⟨_, _, hdrains', hlost⟩ := @no_answer_of_run (engineUnder 2 lookalikeProgram)
      lookalikeQuery 2 rfl (by decide +kernel)
    obtain ⟨answer, hanswer⟩ := hkeeps.exists_answer hdrains hdrains' hfound
    exact hlost answer hanswer

end Horn
