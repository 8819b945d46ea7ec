/-
Answers and proof trees.  Over ground facts and range-restricted rules a search
finds one answer for every proof tree up to the depth limit, in the order of
the clauses chosen, and the answer says exactly what the tree proves.
-/
import Horn.Engine
import Horn.Proofs.DepthFirst
import Horn.Proofs.RuleFrame

namespace Horn

def Bindings.solutions (bindings : Bindings) : Set Valuation :=
  { valuation | valuation.Satisfies bindings }

theorem Extension.solutions_eq {before after : Bindings} {equation : Valuation → Prop}
    (hextension : Extension before after equation) :
    after.solutions = before.solutions ∩ { valuation | equation valuation } :=
  Set.ext hextension.satisfies_iff

namespace Run

/-- In every world with this environment and unused names from `fresh` on, a
run shows nothing but one answer for each of these sets of solutions. -/
def Answers (env : Environment) (fresh : Nat) (run : Run) (sets : List (Set Valuation)) : Prop :=
  ∀ world : World, world.env = env → fresh ≤ world.nextFresh →
    ∃ answers : List Bindings, (run world).1 = answers.map .answer ∧
      answers.Forall₂ (fun answer set => answer.Acyclic ∧ answer.solutions = set) sets ∧
      (run world).2.env = env ∧ world.nextFresh ≤ (run world).2.nextFresh

theorem answers_stop (env : Environment) (fresh : Nat) : stop.Answers env fresh [] := by
  intro world henv _
  exact ⟨[], rfl, .nil, henv, Nat.le_refl _⟩

theorem answers_answer (env : Environment) {fresh : Nat} {found : Bindings}
    (hacyclic : found.Acyclic) : (answer found).Answers env fresh [found.solutions] := by
  intro world henv _
  exact ⟨[found], rfl, .cons ⟨hacyclic, rfl⟩ .nil, henv, Nat.le_refl _⟩

theorem Answers.andThen {env : Environment} {fresh : Nat} {first second : Run}
    {sets sets' : List (Set Valuation)} (hfirst : first.Answers env fresh sets)
    (hsecond : second.Answers env fresh sets') :
    (first.andThen second).Answers env fresh (sets ++ sets') := by
  intro world henv hfresh
  obtain ⟨answers, hshown, hanswers, henv, hnext⟩ := hfirst world henv hfresh
  obtain ⟨answers', hshown', hanswers', henv', hnext'⟩ :=
    hsecond (first world).2 henv (Nat.le_trans hfresh hnext)
  refine ⟨answers ++ answers', ?_, List.rel_append hanswers hanswers', henv',
    Nat.le_trans hnext hnext'⟩
  rw [Run.andThen, List.map_append, ← hshown, ← hshown']

/-- A run after some names have been handed out. -/
theorem Answers.spend {env : Environment} (names : Nat) {run : Run} {world : World}
    {sets : List (Set Valuation)} (hrun : run.Answers env (world.nextFresh + names) sets)
    (henv : world.env = env) :
    ∃ answers : List Bindings, (run (world.spend names)).1 = answers.map .answer ∧
      answers.Forall₂ (fun answer set => answer.Acyclic ∧ answer.solutions = set) sets ∧
      (run (world.spend names)).2.env = env ∧
      world.nextFresh ≤ (run (world.spend names)).2.nextFresh := by
  obtain ⟨answers, hshown, hanswers, henv, hnext⟩ :=
    hrun (world.spend names) henv (Nat.le_refl _)
  exact ⟨answers, hshown, hanswers, henv, Nat.le_trans (Nat.le_add_right _ _) hnext⟩

end Run

/-- The instances of a goal that a tree proves. -/
def instances (theory : Theory) (goal : Fact) (tree : ProofTree) : Set Valuation :=
  { valuation | tree.Proves theory goal valuation }

def instancesAll (theory : Theory) (goals : Query) (trees : List ProofTree) : Set Valuation :=
  { valuation | ProofTree.ProvesAll theory trees goals valuation }

theorem instancesAll_cons (theory : Theory) (goal : Fact) (goals : Query) (tree : ProofTree)
    (trees : List ProofTree) :
    instancesAll theory (.fact goal :: goals) (tree :: trees) =
      instances theory goal tree ∩ instancesAll theory goals trees := by
  ext valuation
  simp [instancesAll, instances, ProofTree.ProvesAll]

/-- A continuation answers, for each tree that has instances among some
solutions, what it should. -/
structure Continues (env : Environment) (fresh : Nat) {Proof : Type}
    (solutions : Proof → Set Valuation) (next : Bindings → Run)
    (sets : Proof → List (Set Valuation)) : Prop where
  answers : ∀ proof later found, fresh ≤ later → Tidy later found →
    found.solutions = solutions proof → (next found).Answers env later (sets proof)
  empty : ∀ proof, solutions proof = ∅ → sets proof = []

theorem Continues.followedBy {env : Environment} {fresh : Nat} {Proof : Type}
    {solutions : Proof → Set Valuation} {next : Bindings → Run}
    {sets : Proof → List (Set Valuation)} (hnext : Continues env fresh solutions next sets)
    (proof : Proof) {later : Nat} (hlater : fresh ≤ later) {result : Option Bindings}
    (hsome : ∀ found, result = some found → Tidy later found ∧ found.solutions = solutions proof)
    (hnone : result = none → solutions proof = ∅) :
    (Run.followedBy next result).Answers env later (sets proof) := by
  cases result with
  | none =>
      rw [hnext.empty proof (hnone rfl)]
      exact Run.answers_stop env later
  | some found =>
      obtain ⟨htidy, hsolutions⟩ := hsome found rfl
      exact hnext.answers proof later found hlater htidy hsolutions

/-- A solver finds exactly the forests of a list, in its order. -/
def Enumerates (env : Environment) (solver : Solver)
    (forests : Query → List (List ProofTree)) : Prop :=
  ∀ (fresh : Nat) (goals : Query) (bindings : Bindings) (next : Bindings → Run)
    (sets : List ProofTree → List (Set Valuation)), Tidy fresh bindings →
    (∀ goal ∈ goals, goal.Below fresh) →
    Continues env fresh (fun trees => bindings.solutions ∩ instancesAll env.theory goals trees)
      next sets →
    (solver goals bindings next).Answers env fresh ((forests goals).flatMap sets)

/-- How rule bodies are proved fits the forests that are expected of them. -/
def EnumeratesBodies (env : Environment) (inner : Query → List (List ProofTree)) :
    Option Solver → Prop
  | none => ∀ goals, inner goals = []
  | some solveBody => (∀ image goals, inner (Query.rename image goals) = inner goals) ∧
      Enumerates env solveBody inner

section Solving

variable {env : Environment} {inner : Query → List (List ProofTree)} {expand : Option Solver}
  {fresh : Nat} {goal : Fact} {bindings : Bindings} {next : Bindings → Run}
  {sets : ProofTree → List (Set Valuation)}

theorem answers_fact {stored : Fact} {position : Nat}
    (hclause : (env.theory.lookup goal.signature)[position]? = some (.fact stored))
    (hplain : stored.Plain) (hground : stored.isGround = true) (htidy : Tidy fresh bindings)
    (hgoal : goal.Below fresh)
    (hnext : Continues env fresh
      (fun tree => bindings.solutions ∩ instances env.theory goal tree) next sets) :
    (tryClause expand goal bindings next (.fact stored)).Answers env fresh
      (sets (.fact position)) := by
  have hnames : ∀ name, name ∉ stored.occurrences :=
    Term.isGround_iff.mp (show stored.toTerm.isGround = true from hground)
  have hproves : ∀ valuation : Valuation,
      stored.toTerm.eval valuation = goal.toTerm.eval valuation ↔
        (ProofTree.fact position).Proves env.theory goal valuation := by
    intro valuation
    rw [ProofTree.Proves]
    constructor
    · intro heq
      exact ⟨stored, valuation, hclause, heq⟩
    · rintro ⟨stored', other, hclause', heq⟩
      obtain rfl : stored = stored' := by
        simpa using hclause.symm.trans hclause'
      rw [← heq]
      exact (Term.eval_eq_iff stored.toTerm _ _).mpr fun name hname =>
        absurd hname (hnames name)
  rw [tryClause, if_pos hground]
  refine hnext.followedBy (.fact position) (Nat.le_refl _) (fun found hfound => ?_)
    fun hfailed => ?_
  · have hextension := (unify_extension htidy.acyclic hfound).congr fun valuation _ =>
      hproves valuation
    refine ⟨⟨hextension.acyclic, ?_⟩, hextension.solutions_eq⟩
    refine unifyFacts_within (stable_below fresh).arg (fun arg harg => ?_) hgoal htidy.within
      hfound
    exact ⟨hplain arg harg, fun name hname =>
      absurd (Fact.mem_occurrences.mpr ⟨arg, harg, hname⟩) (hnames name)⟩
  · apply Set.eq_empty_of_forall_notMem
    intro valuation hboth
    exact unify_eq_none htidy.acyclic hfailed hboth.1 ((hproves valuation).mpr hboth.2)

/-- What the copy of a head and the goal have in common is in order before the body
is proved. -/
theorem tidy_initial {head : Fact} {body : Query} {initial : Bindings} (hplain : head.Plain)
    (htidy : Tidy fresh bindings) (hgoal : goal.Below fresh)
    (hinitial : unifyFacts
      (head.rename ((Clause.rule head body).renameApart freshStem fresh).2.image)
      (bindings.groundFact goal) .empty = some initial) :
    Tidy (fresh + ((Clause.rule head body).renameApart freshStem fresh).2.used) initial := by
  refine ⟨(unify_extension Bindings.acyclic_empty hinitial).acyclic, ?_⟩
  refine unifyFacts_within (stable_below _).arg ?_
    ((htidy.groundFact hgoal).mono (Nat.le_add_right _ _)) (Bindings.within_empty _) hinitial
  exact (Clause.rule head body).below_renameFact fresh hplain (List.subset_append_left _ _)

/-- A proof of the body starts from the common instances of the head and the goal. -/
theorem mem_initial_solutions (theory : Theory) (body : Query) {head caller : Fact}
    {initial : Bindings} (hinitial : unifyFacts head caller .empty = some initial)
    (children : List ProofTree) (valuation : Valuation) :
    valuation ∈ initial.solutions ∩ instancesAll theory body children ↔
      head.toTerm.eval valuation = caller.toTerm.eval valuation ∧
        ProofTree.ProvesAll theory children body valuation := by
  have hextension := unify_extension Bindings.acyclic_empty hinitial
  refine and_congr_left fun _ => (hextension.satisfies_iff valuation).trans ?_
  exact and_iff_right valuation.satisfies_empty

/-- The children that prove a rule's body are those that make the rule prove
the goal: the instances of both are empty together, and carrying back what the
body found leaves the instances of the rule. -/
theorem answers_rule {solveBody : Solver} {head : Fact} {body : Query} {position : Nat}
    (hstore : env.theory.All fun clause => clause.Plain ∧ clause.RangeRestricted)
    (hbodies : EnumeratesBodies env inner (some solveBody))
    (hclause : (env.theory.lookup goal.signature)[position]? = some (.rule head body))
    (htidy : Tidy fresh bindings) (hgoal : goal.Below fresh)
    (hnext : Continues env fresh
      (fun tree => bindings.solutions ∩ instances env.theory goal tree) next sets) :
    (tryClause (some solveBody) goal bindings next (.rule head body)).Answers env fresh
      ((inner body).flatMap fun children => sets (.rule position children)) := by
  obtain ⟨hrename, hsolver⟩ := hbodies
  obtain ⟨⟨hheadPlain, hbodyPlain⟩, _⟩ := hstore goal.signature _ (List.mem_of_getElem? hclause)
  have hrestricted : env.theory.All Clause.RangeRestricted :=
    fun signature clause hmem => (hstore signature clause hmem).2
  intro world henv hfresh
  have htidy := htidy.mono hfresh
  have hgoal := hgoal.mono hfresh
  let names := ((Clause.rule head body).renameApart freshStem world.nextFresh).2
  have hlater : world.nextFresh ≤ world.nextFresh + names.used := Nat.le_add_right _ _
  have hlift := fun (children : List ProofTree) (valuation : Valuation)
      (hsatisfies : valuation.Satisfies bindings)
      (hproves : (ProofTree.rule position children).Proves env.theory goal valuation) =>
    hproves.lift hclause htidy hgoal hsatisfies
  refine Run.Answers.spend names.used ?_ henv
  cases hinitial : unifyFacts (head.rename names.image) (bindings.groundFact goal) .empty with
  | none =>
      have hempty : ∀ children, sets (.rule position children) = [] := by
        intro children
        refine hnext.empty _ (Set.eq_empty_of_forall_notMem fun valuation hboth => ?_)
        obtain ⟨lifted, _, hhead, _⟩ := hlift children valuation hboth.1 hboth.2
        exact unify_eq_none Bindings.acyclic_empty hinitial lifted.satisfies_empty hhead
      rw [List.flatMap_eq_nil_iff.mpr fun children _ => hempty children]
      exact Run.answers_stop env _
  | some initial =>
      have hsolutions :=
        mem_initial_solutions env.theory (Query.rename names.image body) hinitial
      -- the copied body has the forests of the body itself, so the children keep their shape
      rw [← hrename names.image body]
      refine hsolver _ _ _ _ _ (tidy_initial hheadPlain htidy hgoal hinitial) ?_
        ⟨fun children later found hgrown hfound hsame => ?_, fun children hnone => ?_⟩
      · intro renamed hrenamed
        obtain ⟨source, hsource, rfl⟩ := List.mem_map.mp hrenamed
        refine (Clause.rule head body).below_renameGoal world.nextFresh
          (hbodyPlain source hsource) fun name hname => List.mem_append_right _ ?_
        exact List.mem_flatMap.mpr ⟨source, hsource, hname⟩
      · have hfoundSolutions := fun valuation : Valuation =>
          (Set.ext_iff.mp hsame valuation).trans (hsolutions children valuation)
        obtain ⟨hsome, hfailed⟩ :=
          project_rule hrestricted hclause htidy hgoal hfound hfoundSolutions
        have hstart : world.nextFresh ≤ later := Nat.le_trans hlater hgrown
        refine hnext.followedBy (.rule position children)
          (Nat.le_trans hfresh hstart) (fun after hafter => ?_) fun hfailure => ?_
        · have hprojected := hsome after hafter
          exact ⟨⟨hprojected.acyclic, htidy.project hgoal hfound hstart hafter⟩,
            hprojected.solutions_eq⟩
        · apply Set.eq_empty_of_forall_notMem
          intro valuation hboth
          exact hfailed hfailure valuation hboth.1 hboth.2
      · refine hnext.empty _ (Set.eq_empty_of_forall_notMem fun valuation hboth => ?_)
        obtain ⟨lifted, _, hlifted⟩ := hlift children valuation hboth.1 hboth.2
        have hmem := (hsolutions children lifted).mpr hlifted
        rw [hnone] at hmem
        exact hmem

theorem answers_tryClause {clause : Clause} {position : Nat}
    (hstore : env.theory.All fun clause => clause.Plain ∧ clause.RangeRestricted)
    (hbodies : EnumeratesBodies env inner expand)
    (hclause : (env.theory.lookup goal.signature)[position]? = some clause)
    (htidy : Tidy fresh bindings) (hgoal : goal.Below fresh)
    (hnext : Continues env fresh
      (fun tree => bindings.solutions ∩ instances env.theory goal tree) next sets) :
    (tryClause expand goal bindings next clause).Answers env fresh
      ((treesBy inner (clause, position)).flatMap sets) := by
  cases clause with
  | fact stored =>
      obtain ⟨hplain, hground⟩ := hstore goal.signature _ (List.mem_of_getElem? hclause)
      rw [treesBy, List.flatMap_singleton]
      exact answers_fact hclause hplain hground htidy hgoal hnext
  | rule head body =>
      rw [treesBy, List.flatMap_map]
      cases expand with
      | none =>
          have hnone : inner body = [] := hbodies body
          rw [hnone, List.flatMap_nil]
          exact Run.answers_stop env fresh
      | some solveBody => exact answers_rule hstore hbodies hclause htidy hgoal hnext

theorem answers_tryAll
    (hstore : env.theory.All fun clause => clause.Plain ∧ clause.RangeRestricted)
    (hbodies : EnumeratesBodies env inner expand) (htidy : Tidy fresh bindings)
    (hgoal : goal.Below fresh)
    (hnext : Continues env fresh
      (fun tree => bindings.solutions ∩ instances env.theory goal tree) next sets)
    {clauses : List Clause} {start : Nat}
    (hclauses : ∀ entry ∈ clauses.zipIdx start,
      (env.theory.lookup goal.signature)[entry.2]? = some entry.1) :
    (tryAll expand goal bindings next clauses).Answers env fresh
      (((clauses.zipIdx start).flatMap (treesBy inner)).flatMap sets) := by
  induction clauses generalizing start with
  | nil => exact Run.answers_stop env fresh
  | cons clause clauses ih =>
      rw [List.zipIdx_cons] at hclauses ⊢
      obtain ⟨hclause, hclauses⟩ := List.forall_mem_cons.mp hclauses
      rw [List.flatMap_cons, List.flatMap_append]
      exact (answers_tryClause hstore hbodies hclause htidy hgoal hnext).andThen (ih hclauses)

/-- The induction is on the goals.  Each tree for the first goal is followed by
the forests for the others. -/
theorem enumerates_solveWith
    (hstore : env.theory.All fun clause => clause.Plain ∧ clause.RangeRestricted)
    (hbodies : EnumeratesBodies env inner expand) :
    Enumerates env (solveWith expand) (forestsWith env.theory inner) := by
  intro fresh goals bindings next sets htidy hgoals hnext
  induction goals generalizing fresh bindings sets with
  | nil =>
      rw [forestsWith, List.flatMap_singleton]
      refine hnext.answers [] fresh bindings (Nat.le_refl _) htidy ?_
      simp [instancesAll, ProofTree.ProvesAll]
  | cons goal goals ih =>
      obtain ⟨hgoal, hpending⟩ := List.forall_mem_cons.mp hgoals
      cases goal with
      | assign target value => exact hgoal.elim
      | fact goal =>
          rw [forestsWith, List.flatMap_assoc]
          simp only [List.flatMap_map]
          intro world henv hfresh
          simp only [solveWith, solveGoal, hgoal.1, henv]
          refine answers_tryAll hstore hbodies htidy hgoal.2
            ⟨fun tree later found hlater hfound hsame => ?_, fun tree hnone => ?_⟩
            (fun entry hentry => List.mem_zipIdx_iff_getElem?.mp hentry) world henv hfresh
          · refine ih _ _ _ hfound (fun other hother => (hpending other hother).mono hlater)
              ⟨fun trees latest last hgrown hlast hlastSame => ?_, fun trees hnone => ?_⟩
            · refine hnext.answers (tree :: trees) latest last (Nat.le_trans hlater hgrown) hlast ?_
              rw [hlastSame, hsame, instancesAll_cons, Set.inter_assoc]
            · refine hnext.empty (tree :: trees) ?_
              rw [← hnone, hsame, instancesAll_cons, Set.inter_assoc]
          · refine List.flatMap_eq_nil_iff.mpr fun trees _ => hnext.empty (tree :: trees) ?_
            rw [instancesAll_cons, ← Set.inter_assoc, hnone, Set.empty_inter]

end Solving

theorem enumerates_solve {env : Environment}
    (hstore : env.theory.All fun clause => clause.Plain ∧ clause.RangeRestricted)
    (levels : Nat) : Enumerates env (solve levels) (forests env.theory levels) := by
  induction levels with
  | zero =>
      have hbodies : EnumeratesBodies env (fun _ => []) none := fun _ => rfl
      exact enumerates_solveWith hstore hbodies
  | succ levels ih =>
      have hbodies : EnumeratesBodies env (forests env.theory levels) (some (solve levels)) :=
        ⟨fun image goals => forests_rename image levels goals, ih⟩
      exact enumerates_solveWith hstore hbodies

/-- What an answer says of the variables of a query is what a forest proves:
all of them have a value, and the forest proves the query for these values and
for no others. -/
def Says (theory : Theory) (goals : Query) (answer : Bindings) (trees : List ProofTree) : Prop :=
  (∀ name ∈ Query.occurrences goals, (answer.value name).isGround = true) ∧
    ∀ valuation : Valuation, ProofTree.ProvesAll theory trees goals valuation ↔
      ∀ name ∈ Query.occurrences goals, valuation name = (answer.value name).eval valuation

theorem says_of_solutions {theory : Theory} (hstore : theory.All Clause.RangeRestricted)
    {goals : Query} {answer : Bindings} {trees : List ProofTree} (hacyclic : answer.Acyclic)
    (hsolutions : answer.solutions = instancesAll theory goals trees) :
    Says theory goals answer trees := by
  have hsatisfies : ∀ valuation : Valuation, valuation.Satisfies answer ↔
      ProofTree.ProvesAll theory trees goals valuation := Set.ext_iff.mp hsolutions
  have hground : ∀ name ∈ Query.occurrences goals, (answer.value name).isGround = true := by
    intro name hname
    apply hacyclic.isGround_value
    intro left right hleft hright
    exact ((hsatisfies left).mp hleft).agree hstore ((hsatisfies right).mp hright) hname
  refine ⟨hground, fun valuation => ⟨fun hproves name _ => ?_, fun hvalues => ?_⟩⟩
  · exact (((hsatisfies valuation).mpr hproves).eval_value name).symm
  · obtain ⟨solution, hsolution, _⟩ := hacyclic.exists_satisfies valuation
    refine ProofTree.provesAll_congr (fun name hname => ?_) ((hsatisfies solution).mp hsolution)
    rw [hvalues name hname, ← hsolution.eval_value name]
    exact (Term.eval_eq_iff _ _ _).mpr fun inside hinside =>
      absurd hinside (Term.isGround_iff.mp (hground name hname) inside)

theorem Goal.Plain.below {goal : Goal} (hplain : goal.Plain) {fresh : Nat}
    (hnames : ∀ name ∈ goal.occurrences, Older fresh name) : goal.Below fresh := by
  cases goal with
  | assign target value => exact hplain
  | fact goal =>
      exact ⟨hplain.1, fun arg harg => ⟨hplain.2 arg harg, fun name hname =>
        hnames name (Fact.mem_occurrences.mpr ⟨arg, harg, hname⟩)⟩⟩

open Classical in
/-- The forests up to a depth that prove some instance of the goals. -/
noncomputable def proofsUpTo (theory : Theory) (levels : Nat) (goals : Query) :
    List (List ProofTree) :=
  (forests theory levels goals).filter fun trees => (instancesAll theory goals trees).Nonempty

theorem mem_proofsUpTo {theory : Theory} {levels : Nat} {goals : Query}
    {trees : List ProofTree} :
    trees ∈ proofsUpTo theory levels goals ↔ ProofTree.depthAll trees ≤ levels ∧
      ∃ valuation, ProofTree.ProvesAll theory trees goals valuation := by
  simp only [proofsUpTo, List.mem_filter, decide_eq_true_eq]
  constructor
  · rintro ⟨hmem, hproves⟩
    exact ⟨ProofTree.depthAll_le_of_mem_forests hmem, hproves⟩
  · rintro ⟨hdepth, valuation, hproves⟩
    exact ⟨ProofTree.mem_forests hproves hdepth, valuation, hproves⟩

open Classical in
theorem answers_runQuery {env : Environment}
    (hstore : env.theory.All fun clause => clause.Plain ∧ clause.RangeRestricted)
    {goals : Query} {fresh : Nat} (hgoals : ∀ goal ∈ goals, goal.Below fresh) (most : Nat) :
    (runQuery most goals .empty).Answers env fresh
      ((proofsUpTo env.theory most goals).map (instancesAll env.theory goals)) := by
  let sets : List ProofTree → List (Set Valuation) := fun trees =>
    if (instancesAll env.theory goals trees).Nonempty then [instancesAll env.theory goals trees]
    else []
  have hsets : (forests env.theory most goals).flatMap sets =
      (proofsUpTo env.theory most goals).map (instancesAll env.theory goals) := by
    rw [proofsUpTo]
    induction forests env.theory most goals with
    | nil => rfl
    | cons trees rest ih =>
        rw [List.flatMap_cons, ih, List.filter_cons]
        by_cases hproves : (instancesAll env.theory goals trees).Nonempty <;> simp [sets, hproves]
  have hempty : ∀ valuation : Valuation, valuation ∈ Bindings.empty.solutions :=
    fun valuation => valuation.satisfies_empty
  rw [← hsets]
  refine enumerates_solve hstore most fresh goals .empty Run.answer sets
    ⟨Bindings.acyclic_empty, Bindings.within_empty _⟩ hgoals
    ⟨fun trees later found _ hfound hsolutions => ?_, fun trees hnone => ?_⟩
  · have hinstances : found.solutions = instancesAll env.theory goals trees := by
      rw [hsolutions]
      exact Set.inter_eq_right.mpr fun valuation _ => hempty valuation
    obtain ⟨valuation, hsatisfies, _⟩ := hfound.acyclic.exists_satisfies fun _ => .text ""
    have hproves : (instancesAll env.theory goals trees).Nonempty :=
      ⟨valuation, hinstances ▸ hsatisfies⟩
    simp only [sets, if_pos hproves, ← hinstances]
    exact Run.answers_answer env hfound.acyclic
  · have hnothing : ¬ (instancesAll env.theory goals trees).Nonempty := by
      rintro ⟨valuation, hproves⟩
      exact Set.eq_empty_iff_forall_notMem.mp hnone valuation ⟨hempty valuation, hproves⟩
    simp only [sets, if_neg hnothing]

/-- The search behind a stream that an engine opens on a query. -/
def Engine.searchFor (engine : Engine) (goals : Query) : Search :=
  ⟨engine.env, engine.resolver.nextFresh, (engine.query goals).machine, none⟩

/-- Over a store of ground facts and of range-restricted rules on user
predicates, all of plain terms, the answers to a query under a depth limit are
those that its proof trees up to that depth stand for, one for each, in the
lexicographic order of the clause positions. -/
theorem query_answers_proof_trees (engine : Engine) (most : Nat) (goals : Query)
    (hlimit : engine.resolver.maxDepth = some most)
    (hstore : engine.env.theory.All fun clause => clause.Plain ∧ clause.RangeRestricted)
    (hgoals : ∀ goal ∈ goals, goal.Plain)
    (hnames : ∀ name ∈ Query.occurrences goals, ∀ number : Nat,
      name ≠ freshStem ++ toString number) :
    ∃ (answers : List Bindings) (proofs : List (List ProofTree)),
      (∀ observations, (∃ final, Search.Drains engine.resolver.maxDepth
          (engine.searchFor goals) observations final) ↔ observations = answers.map .answer) ∧
      (∀ trees, trees ∈ proofs ↔ ProofTree.depthAll trees ≤ most ∧
        ∃ valuation, ProofTree.ProvesAll engine.env.theory trees goals valuation) ∧
      proofs.Pairwise (fun left right =>
        ProofTree.positionsAll left < ProofTree.positionsAll right) ∧
      answers.Forall₂ (Says engine.env.theory goals) proofs := by
  have hbelow : ∀ goal ∈ goals, goal.Below engine.resolver.nextFresh := fun goal hgoal =>
    (hgoals goal hgoal).below fun name hname number heq =>
      absurd heq (hnames name (List.mem_flatMap.mpr ⟨goal, hgoal, hname⟩) number)
  let world : World := ⟨engine.env, engine.resolver.nextFresh, none⟩
  obtain ⟨answers, hshown, hanswers, _, _⟩ :=
    answers_runQuery hstore hbelow most world rfl (Nat.le_refl _)
  have hdrains := drains_runQuery most goals .empty world
  refine ⟨answers, proofsUpTo engine.env.theory most goals, fun observations => ?_,
    fun trees => mem_proofsUpTo, ?_, ?_⟩
  · rw [hlimit, ← hshown]
    constructor
    · rintro ⟨final, hother⟩
      exact (hother.unique hdrains).1
    · rintro rfl
      exact ⟨_, hdrains⟩
  · have hordered : ProofTree.Ordered (forests engine.env.theory most goals) :=
      ProofTree.ordered_forests most goals
    exact (hordered.filter _).imp fun hprecedes => hprecedes.lt
  · apply (List.forall₂_map_right_iff.mp hanswers).imp
    intro answer trees hanswer
    exact says_of_solutions (fun signature clause hmem => (hstore signature clause hmem).2)
      hanswer.1 hanswer.2

/-- Paths along two edges. -/
def pathProgram : List Statement :=
  [.clause (.fact ⟨"edge", [.atom "a", .atom "b"]⟩),
    .clause (.fact ⟨"edge", [.atom "b", .num 3]⟩),
    .clause (.rule ⟨"path", [.var "X", .var "Y"]⟩ [.fact ⟨"edge", [.var "X", .var "Y"]⟩]),
    .clause (.rule ⟨"path", [.var "X", .var "Z"]⟩
      [.fact ⟨"edge", [.var "X", .var "Y"]⟩, .fact ⟨"path", [.var "Y", .var "Z"]⟩])]

theorem pathProgram_regular {clause : Clause} (hclause : .clause clause ∈ pathProgram) :
    clause.Plain ∧ clause.RangeRestricted := by
  have hvars : ∀ functor left right, (Fact.mk functor [.var left, .var right]).Plain := by
    intro functor left right arg harg
    rcases List.mem_pair.mp harg with rfl | rfl
    · exact .var left
    · exact .var right
  simp only [pathProgram, List.mem_cons, Statement.clause.injEq, List.not_mem_nil,
    or_false] at hclause
  rcases hclause with rfl | rfl | rfl | rfl
  · refine ⟨fun arg harg => ?_, by decide⟩
    rcases List.mem_pair.mp harg with rfl | rfl
    · exact .atom (by decide)
    · exact .atom (by decide)
  · refine ⟨fun arg harg => ?_, by decide⟩
    rcases List.mem_pair.mp harg with rfl | rfl
    · exact .atom (by decide)
    · exact .num (by decide +kernel)
  · refine ⟨⟨hvars _ _ _, fun goal hgoal => ?_⟩, by decide⟩
    rw [List.mem_singleton.mp hgoal]
    exact ⟨rfl, hvars _ _ _⟩
  · refine ⟨⟨hvars _ _ _, fun goal hgoal => ?_⟩, by decide⟩
    rcases List.mem_pair.mp hgoal with rfl | rfl
    · exact ⟨rfl, hvars _ _ _⟩
    · exact ⟨rfl, hvars _ _ _⟩

/-- The query `?- path(a, W).` under a limit of two nested rules. -/
theorem path_answers_proof_trees :
    let engine := (Engine.fresh (some 2) (.fresh none) .empty).insertAll
      pathProgram
    let goals : Query := [.fact ⟨"path", [.atom "a", .var "W"]⟩]
    ∃ (answers : List Bindings) (proofs : List (List ProofTree)),
      (∀ observations, (∃ final, Search.Drains engine.resolver.maxDepth
          (engine.searchFor goals) observations final) ↔ observations = answers.map .answer) ∧
      (∀ trees, trees ∈ proofs ↔ ProofTree.depthAll trees ≤ 2 ∧
        ∃ valuation, ProofTree.ProvesAll engine.env.theory trees goals valuation) ∧
      proofs.Pairwise (fun left right =>
        ProofTree.positionsAll left < ProofTree.positionsAll right) ∧
      answers.Forall₂ (Says engine.env.theory goals) proofs := by
  intro engine goals
  refine query_answers_proof_trees engine 2 goals rfl ?_ ?_ ?_
  · refine Theory.all_ofStatements fun clause hclause start => ?_
    obtain ⟨hplain, hrestricted⟩ := pathProgram_regular hclause
    exact ⟨hplain.rename _, hrestricted.rename hplain _⟩
  · intro goal hgoal
    rw [List.mem_singleton.mp hgoal]
    refine ⟨rfl, fun arg harg => ?_⟩
    rcases List.mem_pair.mp harg with rfl | rfl
    · exact .atom (by decide)
    · exact .var "W"
  · intro name hname number
    rw [List.mem_singleton.mp (show name ∈ ["W"] from hname)]
    exact ne_freshName (by decide) number

end Horn
