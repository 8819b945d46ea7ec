/-
The frame of a rule.  A rule's body is proved on a substitution of its own, for
the goal as it stands.  What the body is proved of there, and what is carried
back, are the instances that the rule proves.
-/
import Mathlib.Data.Set.Basic
import Horn.Proofs.Apart
import Horn.Proofs.ProofTree
import Horn.Proofs.Unification

namespace Horn

/-- A fact with plain arguments; any functor will do. -/
def Fact.Plain (fact : Fact) : Prop :=
  ∀ arg ∈ fact.args, arg.Plain

/-- A goal that is proved by stored clauses. -/
def Goal.Plain : Goal → Prop
  | .fact goal => Builtin.ofFact? goal = none ∧ goal.Plain
  | .assign _ _ => False

def Clause.Plain : Clause → Prop
  | .fact stored => stored.Plain
  | .rule head body => head.Plain ∧ ∀ goal ∈ body, goal.Plain

theorem Fact.mem_occurrences {name : Var} {fact : Fact} :
    name ∈ fact.occurrences ↔ ∃ arg ∈ fact.args, name ∈ arg.occurrences := by
  rw [Fact.occurrences, Term.occurrencesAll_eq_flatMap, List.mem_flatMap]

theorem Fact.mem_variables {name : Var} {fact : Fact} :
    name ∈ fact.variables ↔ name ∈ fact.occurrences := by
  rw [Fact.variables, List.mem_eraseDups]

@[simp] theorem Fact.functor_rename (image : Var → Var) (fact : Fact) :
    (fact.rename image).functor = fact.functor := rfl

theorem Fact.args_rename (image : Var → Var) (fact : Fact) :
    (fact.rename image).args = fact.args.map (Term.rename image) :=
  Term.substAll_eq_map _ _

theorem Fact.forall_args_rename {property : Term → Prop} {image : Var → Var} {fact : Fact}
    (hfact : ∀ arg ∈ fact.args, property (arg.rename image)) :
    ∀ arg ∈ (fact.rename image).args, property arg := by
  rw [fact.args_rename]
  exact List.forall_mem_map.mpr hfact

theorem Fact.rename_of_isGround {fact : Fact} (hground : fact.isGround = true)
    (image : Var → Var) : fact.rename image = fact := by
  have hground : fact.toTerm.isGround = true := hground
  have hterm : fact.toTerm.rename image = fact.toTerm := Term.subst_of_isGround hground _
  rw [← fact.toTerm_rename] at hterm
  exact Fact.toTerm_injective hterm

theorem Fact.mem_occurrences_rename {name : Var} {image : Var → Var} {fact : Fact} :
    name ∈ (fact.rename image).occurrences ↔
      ∃ source ∈ fact.occurrences, name = image source := by
  have hterm : name ∈ (fact.toTerm.rename image).occurrences ↔
      ∃ source ∈ fact.toTerm.occurrences, name = image source := Term.mem_occurrences_rename
  rw [← fact.toTerm_rename] at hterm
  exact hterm

theorem Fact.Plain.rename {fact : Fact} (hplain : fact.Plain) (image : Var → Var) :
    (fact.rename image).Plain :=
  Fact.forall_args_rename fun arg harg => (hplain arg harg).subst fun name _ => .var (image name)

/-- A goal of the engine with the variables of its arguments renamed. -/
def Builtin.rename (image : Var → Var) : Builtin → Builtin
  | .unify left right => .unify (left.rename image) (right.rename image)
  | .write text => .write (text.rename image)
  | .succeed => .succeed
  | .fail => .fail
  | .assert added => .assert (added.rename image)

theorem Builtin.ofFact?_rename (goal : Fact) (image : Var → Var) :
    Builtin.ofFact? (goal.rename image) = (Builtin.ofFact? goal).map (Builtin.rename image) := by
  obtain ⟨functor, args⟩ := goal
  rw [Fact.rename, Fact.subst]
  -- A goal is known by its functor and the number of its arguments.
  rcases args with _ | ⟨first, _ | ⟨second, _ | ⟨third, args⟩⟩⟩
  · simp only [Term.substAll, ofFact?]
    split <;> simp_all [Builtin.rename]
  · simp only [Term.substAll, ofFact?]
    split <;> simp_all [Builtin.rename, Term.rename]
  · simp only [Term.substAll, ofFact?]
    split <;> simp_all [Builtin.rename, Term.rename]
  · simp [Term.substAll, ofFact?]

/-- What the engine's equality equates are the arguments of the goal. -/
theorem Builtin.args_unify {goal : Fact} {left right : Term}
    (hbuiltin : Builtin.ofFact? goal = some (.unify left right)) :
    left ∈ goal.args ∧ right ∈ goal.args := by
  obtain ⟨functor, args⟩ := goal
  rw [ofFact?] at hbuiltin
  split at hbuiltin
  · next _ hargs =>
      simp only at hargs
      injection hbuiltin with hbuiltin
      injection hbuiltin with hleft hright
      simp [hargs, hleft, hright]
  all_goals simp at hbuiltin

theorem Builtin.ofFact?_rename_eq_none {goal : Fact} (hgoal : Builtin.ofFact? goal = none)
    (image : Var → Var) : Builtin.ofFact? (goal.rename image) = none := by
  rw [Builtin.ofFact?_rename, hgoal, Option.map_none]

theorem Goal.Plain.rename {goal : Goal} (hplain : goal.Plain) (image : Var → Var) :
    (goal.rename image).Plain := by
  cases goal with
  | fact goal => exact ⟨Builtin.ofFact?_rename_eq_none hplain.1 image, hplain.2.rename image⟩
  | assign target value => exact hplain

theorem Clause.Plain.rename {clause : Clause} (hplain : clause.Plain) (image : Var → Var) :
    (clause.rename image).Plain := by
  cases clause with
  | fact stored => exact Fact.Plain.rename hplain image
  | rule head body =>
      refine ⟨hplain.1.rename image, fun goal hgoal => ?_⟩
      obtain ⟨source, hsource, rfl⟩ := List.mem_map.mp hgoal
      exact (hplain.2 source hsource).rename image

/-- Renaming leaves no variable of a head outside of the body. -/
theorem Clause.RangeRestricted.rename {clause : Clause} (hplain : clause.Plain)
    (hrestricted : clause.RangeRestricted) (image : Var → Var) :
    (clause.rename image).RangeRestricted := by
  cases clause with
  | fact stored =>
      have hnames := Term.isGround_iff.mp (show stored.toTerm.isGround = true from hrestricted)
      suffices hground : (stored.rename image).toTerm.isGround = true from hground
      apply Term.isGround_iff.mpr
      intro name hname
      obtain ⟨source, hsource, _⟩ := Fact.mem_occurrences_rename.mp hname
      exact hnames source hsource
  | rule head body =>
      intro name hname
      obtain ⟨source, hsource, rfl⟩ := Fact.mem_occurrences_rename.mp hname
      obtain ⟨goal, hgoal, hoccurs⟩ := List.mem_flatMap.mp (hrestricted hsource)
      refine List.mem_flatMap.mpr ⟨goal.rename image, List.mem_map_of_mem hgoal, ?_⟩
      cases goal with
      | fact goal => exact Fact.mem_occurrences_rename.mpr ⟨source, hoccurs, rfl⟩
      | assign target value => exact (hplain.2 _ hgoal).elim

/-- A fact with plain arguments whose variables are all older. -/
def Fact.Below (fresh : Nat) (fact : Fact) : Prop :=
  ∀ arg ∈ fact.args, Horn.Below fresh arg

/-- A substitution without cycles, of plain terms and older names. -/
structure Tidy (fresh : Nat) (bindings : Bindings) : Prop where
  acyclic : bindings.Acyclic
  within : bindings.Within (Below fresh)

theorem Bindings.Within.imp {weak strong : Term → Prop} {bindings : Bindings}
    (hwithin : bindings.Within strong) (himp : ∀ term, strong term → weak term) :
    bindings.Within weak :=
  fun name term hget => (hwithin name term hget).imp (himp _) (himp _)

theorem Tidy.mono {fresh later : Nat} {bindings : Bindings} (htidy : Tidy fresh bindings)
    (hlater : fresh ≤ later) : Tidy later bindings :=
  ⟨htidy.acyclic, htidy.within.imp fun _ hterm => hterm.mono hlater⟩

theorem Tidy.plain {fresh : Nat} {bindings : Bindings} (htidy : Tidy fresh bindings) :
    bindings.Within Term.Plain :=
  htidy.within.imp fun _ hterm => hterm.1

theorem Fact.Below.mono {fresh later : Nat} {fact : Fact} (hfact : fact.Below fresh)
    (hlater : fresh ≤ later) : fact.Below later :=
  fun arg harg => (hfact arg harg).mono hlater

theorem Fact.Below.older {fresh : Nat} {fact : Fact} (hfact : fact.Below fresh) {name : Var}
    (hname : name ∈ fact.occurrences) : Older fresh name := by
  obtain ⟨arg, harg, hname⟩ := Fact.mem_occurrences.mp hname
  exact (hfact arg harg).2 name hname

theorem Clause.below_renameFact (clause : Clause) (start : Nat) {fact : Fact}
    (hplain : fact.Plain) (hnames : fact.occurrences ⊆ clause.occurrences) :
    (fact.rename (clause.renameApart freshStem start).2.image).Below
      (start + (clause.renameApart freshStem start).2.used) :=
  Fact.forall_args_rename fun arg harg =>
    clause.below_rename start (hplain arg harg) fun _ hname =>
      hnames (Fact.mem_occurrences.mpr ⟨arg, harg, hname⟩)

/-- A goal that is proved by stored clauses, with plain arguments and older
names. -/
def Goal.Below (fresh : Nat) : Goal → Prop
  | .fact goal => Builtin.ofFact? goal = none ∧ goal.Below fresh
  | .assign _ _ => False

theorem Goal.Below.mono {fresh later : Nat} {goal : Goal} (hgoal : goal.Below fresh)
    (hlater : fresh ≤ later) : goal.Below later := by
  cases goal with
  | fact goal => exact ⟨hgoal.1, hgoal.2.mono hlater⟩
  | assign target value => exact hgoal

theorem Clause.below_renameGoal (clause : Clause) (start : Nat) {goal : Goal}
    (hplain : goal.Plain) (hnames : goal.occurrences ⊆ clause.occurrences) :
    (goal.rename (clause.renameApart freshStem start).2.image).Below
      (start + (clause.renameApart freshStem start).2.used) := by
  cases goal with
  | assign target value => exact hplain
  | fact goal =>
      exact ⟨Builtin.ofFact?_rename_eq_none hplain.1 _,
        clause.below_renameFact start hplain.2 hnames⟩

theorem Tidy.groundFact {fresh : Nat} {bindings : Bindings} (htidy : Tidy fresh bindings)
    {goal : Fact} (hgoal : goal.Below fresh) : (bindings.groundFact goal).Below fresh := by
  intro arg harg
  rw [Bindings.groundFact, Fact.subst, Term.substAll_eq_map] at harg
  obtain ⟨source, hsource, rfl⟩ := List.mem_map.mp harg
  exact htidy.within.ground (stable_below fresh) (hgoal source hsource)

theorem Valuation.Satisfies.eval_groundFact {valuation : Valuation} {bindings : Bindings}
    (hsatisfies : valuation.Satisfies bindings) (goal : Fact) :
    (bindings.groundFact goal).toTerm.eval valuation = goal.toTerm.eval valuation := by
  rw [Bindings.groundFact, Fact.toTerm_subst]
  exact hsatisfies.eval_ground goal.toTerm

/-- A variable of a goal as it stands leads to an unbound one. -/
theorem Bindings.Acyclic.isVar_of_mem_groundFact {bindings : Bindings}
    (hacyclic : bindings.Acyclic) {goal : Fact} {name : Var}
    (hname : name ∈ (bindings.groundFact goal).occurrences) :
    (bindings.dereference (.var name)).isVar = true := by
  have hterm : name ∈ (goal.toTerm.subst bindings.value).occurrences := by
    rw [← Fact.toTerm_subst]
    exact hname
  obtain ⟨source, _, hsource⟩ := Term.mem_occurrences_subst.mp hterm
  exact hacyclic.isVar_of_mem_value hsource

/-- What a rule's body may bind is open to it in its caller. -/
theorem Tidy.open {fresh : Nat} {bindings : Bindings} (htidy : Tidy fresh bindings)
    {goal : Fact} {name : Var} (hname : name ∈ (bindings.groundFact goal).occurrences) :
    bindings.Open name :=
  Or.inl (htidy.acyclic.isVar_of_mem_groundFact hname)

namespace ProofTree

variable {theory : Theory}

theorem provesAll_congr {trees : List ProofTree} {goals : Query} {left right : Valuation}
    (hsame : ∀ name ∈ Query.occurrences goals, left name = right name)
    (hproves : ProvesAll theory trees goals left) : ProvesAll theory trees goals right := by
  induction goals generalizing trees with
  | nil => cases trees <;> simp_all [ProvesAll]
  | cons goal goals ih =>
      cases trees with
      | nil => simp [ProvesAll] at hproves
      | cons tree trees =>
          cases goal with
          | assign target value => simp [ProvesAll] at hproves
          | fact goal =>
              rw [ProvesAll] at hproves ⊢
              refine ⟨hproves.1.of_eval_eq ?_, ih (fun name hname => ?_) hproves.2⟩
              · exact (Term.eval_eq_iff goal.toTerm left right).mpr fun name hname =>
                  hsame name (Query.mem_occurrences_cons.mpr (Or.inl hname))
              · exact hsame name (Query.mem_occurrences_cons.mpr (Or.inr hname))

variable {goal head : Fact} {body : Query} {position : Nat} {children : List ProofTree}
  {bindings : Bindings} {start : Nat} {valuation : Valuation}

/-- An instance that a rule proves comes from a valuation of the renamed rule
that leaves older names alone. -/
theorem Proves.lift
    (hclause : (theory.lookup goal.signature)[position]? = some (.rule head body))
    (htidy : Tidy start bindings) (hgoal : goal.Below start)
    (hsatisfies : valuation.Satisfies bindings)
    (hproves : (ProofTree.rule position children).Proves theory goal valuation) :
    ∃ lifted : Valuation, (∀ name, Older start name → lifted name = valuation name) ∧
      (head.rename ((Clause.rule head body).renameApart freshStem start).2.image).toTerm.eval
          lifted = (bindings.groundFact goal).toTerm.eval lifted ∧
      ProvesAll theory children
        (Query.rename ((Clause.rule head body).renameApart freshStem start).2.image body)
        lifted := by
  rw [Proves] at hproves
  obtain ⟨head', body', inner, hclause', hhead, hchildren⟩ := hproves
  obtain ⟨rfl, rfl⟩ : head = head' ∧ body = body' := by
    simpa using hclause.symm.trans hclause'
  obtain ⟨lifted, hinner, houter⟩ :=
    (Clause.rule head body).exists_valuation start inner valuation
  refine ⟨lifted, houter, ?_, ?_⟩
  · calc (head.rename _).toTerm.eval lifted
        = head.toTerm.eval inner := by
          rw [head.toTerm_rename, Term.eval_rename]
          exact (Term.eval_eq_iff head.toTerm _ _).mpr fun name hname =>
            hinner name (List.mem_append_left _ hname)
      _ = goal.toTerm.eval valuation := hhead
      _ = (bindings.groundFact goal).toTerm.eval valuation :=
          (hsatisfies.eval_groundFact goal).symm
      _ = (bindings.groundFact goal).toTerm.eval lifted :=
          (Term.eval_eq_iff (bindings.groundFact goal).toTerm _ _).mpr fun name hname =>
            (houter name ((htidy.groundFact hgoal).older hname)).symm
  · rw [provesAll_rename]
    exact provesAll_congr (fun name hname => (hinner name (List.mem_append_right _ hname)).symm)
      hchildren

/-- And a valuation of the renamed rule gives an instance that it proves, for
every solution of the caller with the same values of the goal's variables. -/
theorem Proves.of_lift
    (hclause : (theory.lookup goal.signature)[position]? = some (.rule head body))
    {image : Var → Var} {lifted : Valuation} (hsatisfies : valuation.Satisfies bindings)
    (hsame : ∀ name ∈ (bindings.groundFact goal).occurrences, valuation name = lifted name)
    (hhead : (head.rename image).toTerm.eval lifted =
      (bindings.groundFact goal).toTerm.eval lifted)
    (hchildren : ProvesAll theory children (Query.rename image body) lifted) :
    (ProofTree.rule position children).Proves theory goal valuation := by
  rw [Proves]
  refine ⟨head, body, fun name => lifted (image name), hclause, ?_,
    provesAll_rename.mp hchildren⟩
  rw [← Term.eval_rename, ← head.toTerm_rename, hhead, ← hsatisfies.eval_groundFact goal]
  exact (Term.eval_eq_iff (bindings.groundFact goal).toTerm _ _).mpr fun name hname =>
    (hsame name hname).symm

end ProofTree

section Frame

variable {theory : Theory} {goal head : Fact} {body : Query} {position : Nat}
  {children : List ProofTree} {bindings found : Bindings} {start later : Nat}

/-- Children that prove a rule's body leave no choice for the goal's variables,
since they determine the body and with it the head. -/
theorem isGround_value_of_rule (hstore : theory.All Clause.RangeRestricted)
    (hclause : (theory.lookup goal.signature)[position]? = some (.rule head body))
    (hacyclic : found.Acyclic) {image : Var → Var} {grounded : Fact}
    (hsolutions : ∀ valuation : Valuation, valuation.Satisfies found ↔
      (head.rename image).toTerm.eval valuation = grounded.toTerm.eval valuation ∧
        ProofTree.ProvesAll theory children (Query.rename image body) valuation)
    {name : Var} (hname : name ∈ grounded.occurrences) :
    (found.value name).isGround = true := by
  apply hacyclic.isGround_value
  intro left right hleft hright
  obtain ⟨hleftHead, hleftBody⟩ := (hsolutions left).mp hleft
  obtain ⟨hrightHead, hrightBody⟩ := (hsolutions right).mp hright
  rw [ProofTree.provesAll_rename] at hleftBody hrightBody
  have hhead : head.occurrences ⊆ Query.occurrences body :=
    hstore goal.signature _ (List.mem_of_getElem? hclause)
  have hsame : grounded.toTerm.eval left = grounded.toTerm.eval right := by
    rw [← hleftHead, ← hrightHead, head.toTerm_rename, Term.eval_rename, Term.eval_rename]
    apply (Term.eval_eq_iff head.toTerm _ _).mpr
    intro source hsource
    exact hleftBody.agree hstore hrightBody (hhead hsource)
  exact (Term.eval_eq_iff grounded.toTerm _ _).mp hsame name hname

/-- Carrying a proved body back adds to the caller exactly the equation that
the rule proves the goal, and fails only where that has no solution. -/
theorem project_rule (hstore : theory.All Clause.RangeRestricted)
    (hclause : (theory.lookup goal.signature)[position]? = some (.rule head body))
    (htidy : Tidy start bindings) (hgoal : goal.Below start) (hfound : Tidy later found)
    (hsolutions : ∀ valuation : Valuation, valuation.Satisfies found ↔
      (head.rename ((Clause.rule head body).renameApart freshStem start).2.image).toTerm.eval
          valuation = (bindings.groundFact goal).toTerm.eval valuation ∧
        ProofTree.ProvesAll theory children
          (Query.rename ((Clause.rule head body).renameApart freshStem start).2.image body)
          valuation) :
    (∀ after, project found (bindings.groundFact goal).variables bindings = some after →
      Extension bindings after ((ProofTree.rule position children).Proves theory goal)) ∧
    (project found (bindings.groundFact goal).variables bindings = none →
      ∀ valuation : Valuation, valuation.Satisfies bindings →
        ¬ (ProofTree.rule position children).Proves theory goal valuation) := by
  have hground : ∀ name ∈ (bindings.groundFact goal).occurrences,
      (found.value name).isGround = true := fun name hname =>
    isGround_value_of_rule hstore hclause hfound.acyclic hsolutions hname
  have hequation : ∀ valuation : Valuation, valuation.Satisfies bindings →
      ((∀ name ∈ (bindings.groundFact goal).variables,
        valuation name = (found.value name).eval valuation) ↔
        (ProofTree.rule position children).Proves theory goal valuation) := by
    intro valuation hsatisfies
    -- what was found is ground at these names, so every solution agrees there
    have hvalue : ∀ name ∈ (bindings.groundFact goal).occurrences, ∀ other : Valuation,
        other.Satisfies found → other name = (found.value name).eval valuation := by
      intro name hname other hother
      rw [← hother.eval_value name]
      exact (Term.eval_eq_iff _ _ _).mpr fun inside hinside =>
        absurd hinside (Term.isGround_iff.mp (hground name hname) inside)
    constructor
    · intro hvalues
      obtain ⟨lifted, hlifted, _⟩ := hfound.acyclic.exists_satisfies valuation
      obtain ⟨hhead, hchildren⟩ := (hsolutions lifted).mp hlifted
      refine ProofTree.Proves.of_lift hclause hsatisfies (fun name hname => ?_) hhead hchildren
      rw [hvalue name hname lifted hlifted]
      exact hvalues name (Fact.mem_variables.mpr hname)
    · intro hproves name hname
      rw [Fact.mem_variables] at hname
      obtain ⟨lifted, houter, hhead, hchildren⟩ := hproves.lift hclause htidy hgoal hsatisfies
      rw [← houter name ((htidy.groundFact hgoal).older hname)]
      exact hvalue name hname lifted ((hsolutions lifted).mpr ⟨hhead, hchildren⟩)
  obtain ⟨hsome, hnone⟩ := project_settles
    (fun name hname => ⟨hfound.plain.value stable_plain (.var name),
      hground name (Fact.mem_variables.mp hname)⟩)
    htidy.acyclic htidy.plain fun name hname => htidy.open (Fact.mem_variables.mp hname)
  refine ⟨fun after hafter => (hsome after hafter).congr hequation,
    fun hfailed valuation hsatisfies hproves => ?_⟩
  exact hnone hfailed valuation hsatisfies ((hequation valuation hsatisfies).mpr hproves)

theorem Tidy.project (htidy : Tidy start bindings) (hgoal : goal.Below start)
    (hfound : Tidy later found) (hlater : start ≤ later) {after : Bindings}
    (hafter : project found (bindings.groundFact goal).variables bindings = some after) :
    after.Within (Below later) := by
  refine hfound.within.project (stable_below later) (htidy.mono hlater).within
    (fun name hname => ⟨.var name, fun other hother => ?_⟩) hafter
  rw [Term.mem_occurrences_var] at hother
  rw [hother]
  exact ((htidy.groundFact hgoal).older (Fact.mem_variables.mp hname)).mono hlater

end Frame

end Horn
