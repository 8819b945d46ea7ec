/-
One query under different names.  The two searches keep in step, and the fresh
names of one correspond to those of the other; so one change of names serves for
all their answers.
-/
import Horn.Engine
import Horn.Proofs.Answers
import Horn.Proofs.SideBySide

namespace Horn

section Shifts

variable {moved : Var → Prop} {naming : Naming moved} {start start' : Nat}

/-- From here on the fresh names of the two sides correspond. -/
def Naming.Shifts (naming : Naming moved) (start start' : Nat) : Prop :=
  ∀ number : Nat, freshStem ++ toString (start + number) ∈ naming.source ∧
    naming.toFun (freshStem ++ toString (start + number)) = freshStem ++ toString (start' + number)

theorem Naming.Shifts.add (hshifts : naming.Shifts start start') (used : Nat) :
    naming.Shifts (start + used) (start' + used) := by
  intro number
  rw [Nat.add_assoc, Nat.add_assoc]
  exact hshifts (used + number)

theorem Naming.Shifts.copies (hshifts : naming.Shifts start start') (clause : Clause) :
    naming.Copies clause start start' := by
  intro name hname
  obtain ⟨place, _, himage⟩ := clause.exists_place freshStem hname
  rw [himage, himage]
  exact hshifts place

end Shifts

section Abreast

variable {moved : Var → Prop}

/-- Two worlds with one store, in which the next fresh names correspond. -/
structure Abreast (naming : Naming moved) (theory : Theory) (world world' : World) : Prop where
  store : world.env.theory = theory
  store' : world'.env.theory = theory
  fresh : naming.Shifts world.nextFresh world'.nextFresh

variable {naming : Naming moved} {theory : Theory}

theorem Abreast.spend {world world' : World} (habreast : Abreast naming theory world world')
    {used used' : Nat} (hused : used = used') :
    Abreast naming theory (world.spend used) (world'.spend used') := by
  subst hused
  exact ⟨habreast.store, habreast.store', habreast.fresh.add used⟩

/-- Both try the same rules, and all names correspond from the start. -/
def lockstep (moved : Var → Prop) (theory : Theory) : Pairing moved theory where
  Abreast naming := Abreast naming theory
  Grows := (· = ·)
  Skips := False
  grows_refl _ := rfl
  grows_trans := Eq.trans
  extends_of_grows := by
    rintro larger _ rfl
    exact .refl larger
  store habreast := ⟨habreast.store, habreast.store'⟩
  restrict := by
    rintro _ naming world world' rfl habreast
    exact habreast
  copy habreast clause :=
    ⟨_, rfl, habreast.fresh.copies clause, habreast.spend (clause.used_renameApart _ _ _)⟩
  skip hskips := hskips.elim

/-- The answers to a query and those to the renamed one come in the same order,
and are alike one by one. -/
theorem alike_runQuery
    (hstore : theory.All fun clause => clause.Quiet ∧ clause.Clear moved) (most : Nat)
    {goals : Query} (hgoals : ∀ goal ∈ goals, naming.Takes goal) (world world' : World)
    (habreast : Abreast naming theory world world') :
    let first := runQuery most goals .empty world
    let second := runQuery most (Query.rename naming.toFun goals) .empty world'
    ∃ answers answers' : List Bindings,
      first.1 = answers.map .answer ∧ second.1 = answers'.map .answer ∧
        answers.Forall₂ (Mirrors naming) answers' ∧ Abreast naming theory first.2 second.2 := by
  have hpaired : (lockstep moved theory).Paired naming (runQuery most goals .empty)
      (runQuery most (Query.rename naming.toFun goals) .empty) :=
    Pairing.paired_runQuery hstore (Or.inl rfl) hgoals
  obtain ⟨answers, answers', hshown, hshown', ⟨kept, hkin, _, hall⟩, hafter⟩ :=
    hpaired world world' habreast
  refine ⟨answers, answers', hshown, hshown', ?_, hafter⟩
  rw [← hall not_false]
  refine hkin.imp ?_
  rintro found found' ⟨_, rfl, hmirrors⟩
  exact hmirrors

end Abreast

/-- The names that answers may hold: those of the query, and fresh ones from some
number on. -/
def answerNames (goals : Query) (start : Nat) : Set Var :=
  { name | name ∈ Query.variables goals ∨
    ∃ number : Nat, name = freshStem ++ toString (start + number) }

open Classical in
/-- New names for the variables of a query, and later numbers for fresh ones. -/
noncomputable def extendNames (names : Var → Var) (start start' : Nat) : Var → Var := fun name =>
  if h : ∃ number : Nat, name = freshStem ++ toString (start + number) then
    freshStem ++ toString (start' + h.choose)
  else names name

theorem extendNames_freshName (names : Var → Var) (start start' number : Nat) :
    extendNames names start start' (freshStem ++ toString (start + number)) =
      freshStem ++ toString (start' + number) := by
  have hfresh : ∃ other : Nat, freshStem ++ toString (start + number) =
      freshStem ++ toString (start + other) := ⟨number, rfl⟩
  rw [extendNames, dif_pos hfresh]
  have hsame := freshName_injective hfresh.choose_spec
  rw [← Nat.add_left_cancel hsame]

theorem extendNames_of_older (names : Var → Var) {start : Nat} (start' : Nat) {name : Var}
    (hname : Older start name) : extendNames names start start' name = names name := by
  refine dif_neg ?_
  rintro ⟨number, heq⟩
  exact absurd (hname _ heq) (by omega)

theorem isSpelled_freshName (number : Nat) : IsSpelled (freshStem ++ toString number) := by
  have hchars : (freshStem ++ toString number).toList =
      '_' :: 's' :: 'f' :: Nat.toDigits 10 number := by
    rw [String.toList_append]
    exact congrArg _ String.toList_ofList
  refine ⟨?_, fun heq => ?_⟩
  · rw [isVariableName, hchars]
    have hdigits : ∀ c ∈ Nat.toDigits 10 number, isWordChar c = true := fun c hc =>
      isWordChar_of_isDigit (isDigit_of_mem_digits hc)
    simp only [Bool.and_eq_true, List.all_cons, List.all_eq_true]
    exact ⟨by decide, by decide, by decide, hdigits⟩
  · have hhead := congrArg (fun name : String => name.toList.head?) heq
    simp only [hchars, List.head?_cons] at hhead
    exact absurd hhead (by decide)

/-- The names that are not the same in two searches: the variables of a query that
have new names, these new names, and fresh names if the searches number them in
different ways. -/
def IsChanged (goals : Query) (names : Var → Var) (start start' : Nat) : Var → Prop := fun name =>
  (∃ source ∈ Query.variables goals,
    names source ≠ source ∧ (name = source ∨ name = names source)) ∨
  start ≠ start' ∧ ∃ number : Nat, name = freshStem ++ toString (start + number) ∨
    name = freshStem ++ toString (start' + number)

section Extension

variable {goals : Query} {names : Var → Var} {start start' : Nat}

/-- New names stay apart from fresh ones where none of them is one, or only for a
variable that is the corresponding one. -/
theorem injOn_extendNames {known : Set Var}
    (hkept : ∀ name ∈ known, extendNames names start start' name = names name)
    (hapart : ∀ name ∈ known, ∀ number : Nat, names name = freshStem ++ toString (start' + number) →
      name = freshStem ++ toString (start + number)) (hinjective : Set.InjOn names known) :
    Set.InjOn (extendNames names start start')
      { name | name ∈ known ∨ ∃ number : Nat, name = freshStem ++ toString (start + number) } := by
  rintro first (hfirst | ⟨number, rfl⟩) second (hsecond | ⟨number', rfl⟩) heq
  · rw [hkept first hfirst, hkept second hsecond] at heq
    exact hinjective hfirst hsecond heq
  · rw [hkept first hfirst, extendNames_freshName] at heq
    exact hapart first hfirst number' heq
  · rw [hkept second hsecond, extendNames_freshName] at heq
    exact (hapart second hsecond number heq.symm).symm
  · rw [extendNames_freshName, extendNames_freshName] at heq
    rw [Nat.add_left_cancel (freshName_injective heq)]

/-- New names for a query's variables.  They are variables on both sides, no two of
them become the same, and none is taken for what is no number. -/
structure NewNames (goals : Query) (names : Var → Var) (start start' : Nat) : Prop where
  isName : ∀ name ∈ Query.variables goals,
    isVariableName name = true ∧ isVariableName (names name) = true
  injective : Set.InjOn names { name | name ∈ Query.variables goals }
  number : ∀ name ∈ Query.variables goals, names name ≠ name → name ≠ "NaN" ∧ names name ≠ "NaN"
  /-- A fresh name that is still to come may only stand for itself. -/
  older : ∀ name ∈ Query.variables goals,
    Older start name ∧ Older start' (names name) ∨ start = start' ∧ names name = name

namespace NewNames

variable (hnew : NewNames goals names start start')
include hnew

theorem spelled {name : Var} (hname : IsChanged goals names start start' name) :
    IsSpelled name := by
  rcases hname with ⟨source, hsource, hne, rfl | rfl⟩ | ⟨_, number, rfl | rfl⟩
  · exact ⟨(hnew.isName _ hsource).1, (hnew.number _ hsource hne).1⟩
  · exact ⟨(hnew.isName _ hsource).2, (hnew.number _ hsource hne).2⟩
  · exact isSpelled_freshName _
  · exact isSpelled_freshName _

theorem kept {name : Var} (hname : name ∈ Query.variables goals) :
    extendNames names start start' name = names name := by
  rcases hnew.older name hname with ⟨holder, _⟩ | ⟨rfl, hsame⟩
  · exact extendNames_of_older names start' holder
  · rw [extendNames]
    split
    · next hfresh => rw [hsame, ← hfresh.choose_spec]
    · rfl

theorem apart {name : Var} (hname : name ∈ Query.variables goals) {number : Nat}
    (heq : names name = freshStem ++ toString (start' + number)) :
    name = freshStem ++ toString (start + number) := by
  rcases hnew.older name hname with ⟨_, holder⟩ | ⟨rfl, hsame⟩
  · exact absurd (holder _ heq) (by omega)
  · exact hsame.symm.trans heq

/-- A variable of the query that keeps its name has a name that nothing else gets. -/
theorem inert_of_same {name : Var} (hname : name ∈ Query.variables goals)
    (hsame : names name = name) : Inert (IsChanged goals names start start') name := by
  refine inert_of_isVariableName (hnew.isName name hname).1 ?_
  rintro (⟨source, hsource, hne, rfl | heq⟩ | ⟨hstart, number, hfresh⟩)
  · exact hne hsame
  · exact hne (hnew.injective hsource hname (heq.symm.trans hsame.symm) ▸ hsame)
  · rcases hnew.older name hname with ⟨holder, holder'⟩ | ⟨heq, _⟩
    · rw [hsame] at holder'
      rcases hfresh with heq | heq
      · exact absurd (holder _ heq) (by omega)
      · exact absurd (holder' _ heq) (by omega)
    · exact hstart heq

/-- Fresh names with the same numbers on both sides are no names that are changed. -/
theorem inert_freshName (hstart : start = start') (number : Nat) :
    Inert (IsChanged goals names start start') (freshStem ++ toString (start + number)) := by
  refine inert_of_isVariableName (isSpelled_freshName _).1 ?_
  rintro (⟨source, hsource, hne, hsame⟩ | ⟨hother, _⟩)
  · obtain ⟨holder, holder'⟩ :=
      (hnew.older source hsource).resolve_right fun ⟨_, hsame⟩ => hne hsame
    rcases hsame with heq | heq
    · exact absurd (holder _ heq.symm) (by omega)
    · exact absurd (holder' _ heq.symm) (by omega)
  · exact hother hstart

/-- The names of two searches for one query. -/
theorem exists_naming :
    ∃ naming : Naming (IsChanged goals names start start'),
      naming.source = answerNames goals start ∧
      naming.toFun = extendNames names start start' := by
  have hinjOn : Set.InjOn (extendNames names start start') (answerNames goals start) :=
    injOn_extendNames (fun _ => hnew.kept) (fun _ hname _ => hnew.apart hname)
      hnew.injective
  refine ⟨⟨hinjOn.toPartialEquiv _ _, fun _ => hnew.spelled, ?_⟩, rfl, rfl⟩
  rintro name (hname | ⟨number, rfl⟩)
  · have himage : hinjOn.toPartialEquiv.toFun name = names name := hnew.kept hname
    rw [himage]
    by_cases hsame : names name = name
    · exact Or.inr ⟨hsame, hnew.inert_of_same hname hsame⟩
    · exact Or.inl ⟨Or.inl ⟨name, hname, hsame, Or.inl rfl⟩,
        Or.inl ⟨name, hname, hsame, Or.inr rfl⟩⟩
  · have himage : hinjOn.toPartialEquiv.toFun (freshStem ++ toString (start + number)) =
        freshStem ++ toString (start' + number) := extendNames_freshName names start start' number
    rw [himage]
    by_cases hstart : start = start'
    · exact Or.inr ⟨by rw [hstart], hnew.inert_freshName hstart number⟩
    · exact Or.inl ⟨Or.inr ⟨hstart, number, Or.inl rfl⟩, Or.inr ⟨hstart, number, Or.inr rfl⟩⟩

end NewNames

end Extension

/-- A query on one engine and the query under other names on another have the same
answers, one for one and in the same order.  One change of names serves for all of
them: it takes the query's variables to their new names and fresh names to fresh
names, and leaves no two names of an answer the same. -/
def SameAnswers (engine engine' : Engine) (goals : Query) (names : Var → Var) : Prop :=
  ∃ image : Var → Var,
    Set.InjOn image (answerNames goals engine.resolver.nextFresh) ∧
    (∀ name ∈ Query.variables goals, image name = names name) ∧
    (∀ number : Nat, image (freshStem ++ toString (engine.resolver.nextFresh + number)) =
      freshStem ++ toString (engine'.resolver.nextFresh + number)) ∧
    ∃ (answers answers' : List Bindings) (final final' : Search),
      Search.Drains engine.resolver.maxDepth (engine.searchFor goals) (answers.map .answer)
        final ∧
      Search.Drains engine'.resolver.maxDepth (engine'.searchFor (Query.rename names goals))
        (answers'.map .answer) final' ∧
      answers.Forall₂ (fun answer answer' => ∀ name ∈ Query.variables goals,
        (∀ other ∈ (answer.value name).occurrences,
          other ∈ answerNames goals engine.resolver.nextFresh) ∧
        answer'.value (names name) = (answer.value name).rename image) answers'

/-- Under a depth limit, over a program without effects in which no text can be
taken for a name that is changed, the names of a query's variables do not matter,
as long as no fresh name that is still to come is changed or put in their place. -/
theorem query_names_do_not_matter (engine engine' : Engine) (program : List Statement)
    (goals : Query) (names : Var → Var) (most : Nat)
    (htheory : engine.env.theory = Theory.ofStatements program)
    (htheory' : engine'.env.theory = Theory.ofStatements program)
    (hlimit : engine.resolver.maxDepth = some most)
    (hlimit' : engine'.resolver.maxDepth = some most)
    (hnew : NewNames goals names engine.resolver.nextFresh engine'.resolver.nextFresh)
    (hprogram : ∀ clause, .clause clause ∈ program → clause.Quiet ∧
      clause.Clear (IsChanged goals names engine.resolver.nextFresh engine'.resolver.nextFresh))
    (hgoals : ∀ goal ∈ goals, goal.Quiet ∧
      goal.Clear (IsChanged goals names engine.resolver.nextFresh engine'.resolver.nextFresh)) :
    SameAnswers engine engine' goals names := by
  obtain ⟨naming, hsource, htoFun⟩ := hnew.exists_naming
  have himage : ∀ name ∈ Query.variables goals, naming.toFun name = names name :=
    fun name hname => htoFun ▸ hnew.kept hname
  have hfresh : ∀ number : Nat,
      naming.toFun (freshStem ++ toString (engine.resolver.nextFresh + number)) =
        freshStem ++ toString (engine'.resolver.nextFresh + number) :=
    fun number => htoFun ▸ extendNames_freshName names _ _ number
  have hmem : ∀ name ∈ Query.variables goals, name ∈ naming.source :=
    fun name hname => hsource ▸ Or.inl hname
  have htakes : ∀ goal ∈ goals, naming.Takes goal := fun goal hgoal =>
    ⟨(hgoals goal hgoal).1, (hgoals goal hgoal).2, fun name hname =>
      hmem name (List.mem_eraseDups.mpr (List.mem_flatMap.mpr ⟨goal, hgoal, hname⟩))⟩
  have hstore : (Theory.ofStatements program).All fun clause => clause.Quiet ∧ clause.Clear _ :=
    Theory.all_ofStatements fun clause hclause _ =>
      ⟨(hprogram clause hclause).1.rename _, (hprogram clause hclause).2.rename _⟩
  -- on the query itself the extended renaming is the given one
  have hrenamed : Query.rename names goals = Query.rename naming.toFun goals :=
    Query.rename_congr fun name hname => (himage name (List.mem_eraseDups.mpr hname)).symm
  obtain ⟨answers, answers', hshown, hshown', hanswers, _⟩ := alike_runQuery hstore most htakes
    ⟨engine.env, engine.resolver.nextFresh, none⟩ ⟨engine'.env, engine'.resolver.nextFresh, none⟩
    ⟨htheory, htheory', fun number => ⟨hsource ▸ Or.inr ⟨number, rfl⟩, hfresh number⟩⟩
  have hdrains := drains_runQuery most goals .empty ⟨engine.env, engine.resolver.nextFresh, none⟩
  have hdrains' := drains_runQuery most (Query.rename naming.toFun goals) .empty
    ⟨engine'.env, engine'.resolver.nextFresh, none⟩
  rw [hshown, ← hlimit] at hdrains
  rw [hshown', ← hlimit', ← hrenamed] at hdrains'
  refine ⟨naming.toFun, ?_, himage, hfresh, answers, answers', _, _, hdrains, hdrains', ?_⟩
  · intro first hfirst second hsecond
    exact Naming.toFun_injective (hsource ▸ hfirst) (hsource ▸ hsecond)
  · refine hanswers.imp fun answer answer' hmirrors name hname => ⟨fun other hother => ?_, ?_⟩
    · have hcovers := hmirrors.there.within.value (Naming.stable_covers naming)
        (Naming.covers_var (hmem name hname))
      exact hsource ▸ hcovers.2 other hother
    · rw [← himage name hname]
      exact hmirrors.value (hmem name hname)

/-- An engine with a program and a depth limit. -/
def limitedEngine (program : List Statement) : Engine :=
  (Engine.fresh (some 10) (.fresh none) .empty).insertAll program

/-- A stored fact with a variable. -/
def wrapProgram : List Statement :=
  [.clause (.fact ⟨"p", [.fact "f" [.var "X"]]⟩)]

/-- The queries `?- p(Z).` and `?- p(Q).` -/
theorem wrapped_under_other_name :
    SameAnswers (limitedEngine wrapProgram) (limitedEngine wrapProgram)
      [.fact ⟨"p", [.var "Z"]⟩] fun _ => "Q" := by
  have hnew : NewNames [.fact ⟨"p", [.var "Z"]⟩] (fun _ => "Q") 0 0 := by
    have hvariable : ∀ name ∈ Query.variables [.fact ⟨"p", [.var "Z"]⟩], name = "Z" :=
      fun name hname => List.mem_singleton.mp hname
    refine ⟨fun name hname => ?_, fun first hfirst second hsecond _ => ?_, fun name hname _ => ?_,
      fun name hname => Or.inl ?_⟩
    · rw [hvariable name hname]
      decide
    · rw [hvariable first hfirst, hvariable second hsecond]
    · rw [hvariable name hname]
      decide
    · rw [hvariable name hname]
      exact ⟨fun number heq => absurd heq (ne_freshName (by decide) number),
        fun number heq => absurd heq (ne_freshName (by decide) number)⟩
  refine query_names_do_not_matter _ _ wrapProgram _ _ 10 rfl rfl rfl rfl hnew
    (fun clause hclause => ?_) (List.forall_mem_singleton.mpr
      ⟨Goal.logical_of_user rfl, List.forall_mem_singleton.mpr (.var "Z")⟩)
  obtain rfl := Statement.clause.inj (List.mem_singleton.mp hclause)
  exact ⟨trivial, List.forall_mem_singleton.mpr
    (.fact (inert_of_isIdentifier (fun _ => hnew.spelled) (by decide))
      (List.forall_mem_singleton.mpr (.var "X")))⟩

/-- A query has an answer, and under other names it has none. -/
def LosesAnswers (engine : Engine) (goals : Query) (names : Var → Var) : Prop :=
  (∃ observations final,
    Search.Drains engine.resolver.maxDepth (engine.searchFor goals) observations final ∧
    ∃ answer, .answer answer ∈ observations) ∧
  ∃ observations final,
    Search.Drains engine.resolver.maxDepth (engine.searchFor (Query.rename names goals))
      observations final ∧
    ∀ answer, .answer answer ∉ observations

section Runs

variable {engine : Engine} {goals : Query} {most : Nat}

theorem exists_answer_of_run (hlimit : engine.resolver.maxDepth = some most)
    (hfound : (runQuery most goals .empty
      ⟨engine.env, engine.resolver.nextFresh, none⟩).1.any Observation.isAnswer = true) :
    ∃ observations final,
      Search.Drains engine.resolver.maxDepth (engine.searchFor goals) observations final ∧
      ∃ answer, .answer answer ∈ observations := by
  refine ⟨_, _, hlimit ▸ drains_runQuery most goals .empty
    ⟨engine.env, engine.resolver.nextFresh, none⟩, ?_⟩
  obtain ⟨observation, hmem, hanswer⟩ := List.any_eq_true.mp hfound
  cases observation with
  | answer answer => exact ⟨answer, hmem⟩
  | event seen => cases hanswer

theorem no_answer_of_run (hlimit : engine.resolver.maxDepth = some most)
    (hlost : (runQuery most goals .empty
      ⟨engine.env, engine.resolver.nextFresh, none⟩).1.any Observation.isAnswer = false) :
    ∃ observations final,
      Search.Drains engine.resolver.maxDepth (engine.searchFor goals) observations final ∧
      ∀ answer, .answer answer ∉ observations := by
  refine ⟨_, _, hlimit ▸ drains_runQuery most goals .empty
    ⟨engine.env, engine.resolver.nextFresh, none⟩, fun answer hanswer => ?_⟩
  exact absurd rfl (List.any_eq_false.mp hlost _ hanswer)

theorem losesAnswers_of_runs {names : Var → Var} (hlimit : engine.resolver.maxDepth = some most)
    (hfound : (runQuery most goals .empty
      ⟨engine.env, engine.resolver.nextFresh, none⟩).1.any Observation.isAnswer = true)
    (hlost : (runQuery most (Query.rename names goals) .empty
      ⟨engine.env, engine.resolver.nextFresh, none⟩).1.any Observation.isAnswer = false) :
    LosesAnswers engine goals names :=
  ⟨exists_answer_of_run hlimit hfound, no_answer_of_run hlimit hlost⟩

end Runs

/-- The lexer takes `_sf0` for a variable, and the first copy of a clause has a
variable of that name: the query `?- p(Z).` has an answer, and `?- p(_sf0).` has
none, since no term is bound to a variable in it. -/
theorem fresh_name_is_captured :
    isVariableName "_sf0" = true ∧ Set.InjOn (fun _ => "_sf0")
      { name | name ∈ Query.variables [.fact ⟨"p", [.var "Z"]⟩] } ∧
    LosesAnswers (limitedEngine wrapProgram) [.fact ⟨"p", [.var "Z"]⟩] fun _ => "_sf0" := by
  refine ⟨by decide, fun first hfirst second hsecond _ => ?_,
    losesAnswers_of_runs rfl (by decide +kernel) (by decide +kernel)⟩
  rw [List.mem_singleton.mp (show first ∈ ["Z"] from hfirst),
    List.mem_singleton.mp (show second ∈ ["Z"] from hsecond)]

/-- A rule whose body gives its first argument the third, and its second a fact
with a functor that is no identifier. -/
def functorProgram : List Statement :=
  [.clause (.rule ⟨"p", [.var "X", .var "Y", .var "Z"]⟩
    [.fact ⟨"=", [.var "X", .var "Z"]⟩, .fact ⟨"=", [.var "Y", .fact "f" [.fact "A" []]]⟩])]

/-- The same with what is no number in the fact. -/
def divisionProgram : List Statement :=
  [.clause (.rule ⟨"p", [.var "X", .var "Y", .var "Z"]⟩
    [.fact ⟨"=", [.var "X", .var "Z"]⟩,
      .assign "N" (.single ⟨.num 0, some .divide, some (.num 0)⟩),
      .fact ⟨"=", [.var "Y", .fact "f" [.var "N"]]⟩])]

/-- The query `?- X = Y, p(X, Y, f(V)).` for a variable `V`. -/
def linkedQuery (name : Var) : Query :=
  [.fact ⟨"=", [.var "X", .var "Y"]⟩, .fact ⟨"p", [.var "X", .var "Y", .fact "f" [.var name]]⟩]

/-- Values that come back to linked variables are compared as texts, so a variable
can be taken for a functor, and for what is no number. -/
theorem text_is_taken_for_name :
    LosesAnswers (limitedEngine functorProgram) (linkedQuery "A")
      (fun name => if name = "A" then "B" else name) ∧
    LosesAnswers (limitedEngine divisionProgram) (linkedQuery "NaN")
      (fun name => if name = "NaN" then "B" else name) :=
  ⟨losesAnswers_of_runs rfl (by decide +kernel) (by decide +kernel),
    losesAnswers_of_runs rfl (by decide +kernel) (by decide +kernel)⟩

end Horn
