/-
Proof trees.  A tree says which stored clause proves a goal, by its place among
the clauses of the goal's signature, and how the goals of its body are proved
in turn.  Nothing here depends on a substitution or on an order of search.
-/
import Horn.Proofs.Renamed
import Horn.Proofs.Stored

namespace Horn

inductive ProofTree
  | fact (position : Nat)
  | rule (position : Nat) (children : List ProofTree)

/-- Induction on a proof tree with one hypothesis for each child. -/
@[induction_eliminator]
theorem ProofTree.inductionOn {motive : ProofTree → Prop}
    (fact : ∀ position, motive (.fact position))
    (rule : ∀ position children, (∀ child ∈ children, motive child) →
      motive (.rule position children)) (tree : ProofTree) : motive tree := by
  refine @ProofTree.rec motive (fun trees => ∀ tree ∈ trees, motive tree)
    fact rule ?_ ?_ tree
  · simp
  · intro head tail hhead htail other hother
    rcases List.mem_cons.mp hother with rfl | hother
    · exact hhead
    · exact htail other hother

mutual

/-- The number of rules nested in one another. -/
def ProofTree.depth : ProofTree → Nat
  | .fact _ => 0
  | .rule _ children => depthAll children + 1

def ProofTree.depthAll : List ProofTree → Nat
  | [] => 0
  | tree :: rest => max tree.depth (depthAll rest)

end

mutual

/-- The clause positions chosen, goal by goal from left to right. -/
def ProofTree.positions : ProofTree → List Nat
  | .fact position => [position]
  | .rule position children => position :: positionsAll children

def ProofTree.positionsAll : List ProofTree → List Nat
  | [] => []
  | tree :: rest => tree.positions ++ positionsAll rest

end

mutual

/-- The tree proves a goal's instance under a valuation: an instance of the
chosen clause has it as its head, and the children prove the body. -/
def ProofTree.Proves (theory : Theory) : ProofTree → Fact → Valuation → Prop
  | .fact position, goal, valuation =>
      ∃ stored inner, (theory.lookup goal.signature)[position]? = some (.fact stored) ∧
        stored.toTerm.eval inner = goal.toTerm.eval valuation
  | .rule position children, goal, valuation =>
      ∃ head body inner, (theory.lookup goal.signature)[position]? = some (.rule head body) ∧
        head.toTerm.eval inner = goal.toTerm.eval valuation ∧
        ProvesAll theory children body inner

/-- One tree for each goal. -/
def ProofTree.ProvesAll (theory : Theory) : List ProofTree → Query → Valuation → Prop
  | [], [], _ => True
  | tree :: trees, .fact goal :: goals, valuation =>
      tree.Proves theory goal valuation ∧ ProvesAll theory trees goals valuation
  | _, _, _ => False

end

theorem Query.mem_occurrences_cons {name : Var} {goal : Goal} {goals : Query} :
    name ∈ Query.occurrences (goal :: goals) ↔
      name ∈ goal.occurrences ∨ name ∈ Query.occurrences goals := by
  simp [Query.occurrences]

theorem Fact.signature_eq_of_eval {left right : Fact} {valuation valuation' : Valuation}
    (heq : left.toTerm.eval valuation = right.toTerm.eval valuation') :
    left.signature = right.signature := by
  rw [Fact.toTerm, Fact.toTerm, Term.eval_fact, Term.eval_fact, Tree.node.injEq] at heq
  have hlength := congrArg List.length heq.2
  rw [List.length_map, List.length_map] at hlength
  rw [Fact.signature, Fact.signature, heq.1, hlength]

namespace ProofTree

variable {theory : Theory}

/-- What a tree proves is the instance, however the goal is written. -/
theorem Proves.of_eval_eq {tree : ProofTree} {goal goal' : Fact}
    {valuation valuation' : Valuation} (hproves : tree.Proves theory goal valuation)
    (heq : goal.toTerm.eval valuation = goal'.toTerm.eval valuation') :
    tree.Proves theory goal' valuation' := by
  have hsignature := Fact.signature_eq_of_eval heq
  cases tree with
  | fact position =>
      rw [Proves] at hproves ⊢
      rwa [← hsignature, ← heq]
  | rule position children =>
      rw [Proves] at hproves ⊢
      rwa [← hsignature, ← heq]

theorem provesAll_rename {trees : List ProofTree} {image : Var → Var} {goals : Query}
    {valuation : Valuation} :
    ProvesAll theory trees (Query.rename image goals) valuation ↔
      ProvesAll theory trees goals fun name => valuation (image name) := by
  have hvalue : ∀ goal : Fact, (goal.rename image).toTerm.eval valuation =
      goal.toTerm.eval fun name => valuation (image name) := by
    intro goal
    rw [goal.toTerm_rename, Term.eval_rename]
  induction goals generalizing trees with
  | nil => cases trees <;> simp [Query.rename, ProvesAll]
  | cons goal goals ih =>
      cases trees with
      | nil => cases goal <;> simp [Query.rename, Goal.rename, ProvesAll]
      | cons tree trees =>
          cases goal with
          | assign target value => simp [Query.rename, Goal.rename, ProvesAll]
          | fact goal =>
              have htree : tree.Proves theory (goal.rename image) valuation ↔
                  tree.Proves theory goal fun name => valuation (image name) :=
                ⟨fun h => h.of_eval_eq (hvalue goal), fun h => h.of_eval_eq (hvalue goal).symm⟩
              simp only [Query.rename, List.map_cons, Goal.rename, ProvesAll, htree]
              exact and_congr_right fun _ => ih

end ProofTree

/-- Facts have no variables, and the variables of a rule's head occur in its
body. -/
def Clause.RangeRestricted : Clause → Prop
  | .fact stored => stored.isGround = true
  | .rule head body => head.occurrences ⊆ Query.occurrences body

instance : DecidablePred Clause.RangeRestricted
  | .fact stored => inferInstanceAs (Decidable (stored.isGround = true))
  | .rule head body => inferInstanceAs
      (Decidable (∀ name ∈ head.occurrences, name ∈ Query.occurrences body))

namespace ProofTree

variable {theory : Theory}

theorem provesAll_agree {trees : List ProofTree}
    (htrees : ∀ tree ∈ trees, ∀ (goal : Fact) (left right : Valuation),
      tree.Proves theory goal left → tree.Proves theory goal right →
        ∀ name ∈ goal.occurrences, left name = right name)
    {goals : Query} {left right : Valuation} (hleft : ProvesAll theory trees goals left)
    (hright : ProvesAll theory trees goals right) {name : Var}
    (hname : name ∈ Query.occurrences goals) : left name = right name := by
  induction trees generalizing goals with
  | nil =>
      cases goals with
      | nil => simp [Query.occurrences] at hname
      | cons goal goals => simp [ProvesAll] at hleft
  | cons tree trees ih =>
      cases goals with
      | nil => simp [ProvesAll] at hleft
      | cons goal goals =>
          cases goal with
          | assign target value => simp [ProvesAll] at hleft
          | fact goal =>
              rw [ProvesAll] at hleft hright
              rcases Query.mem_occurrences_cons.mp hname with hname | hname
              · exact htrees tree List.mem_cons_self goal left right hleft.1 hright.1 name hname
              · exact ih (fun other hother => htrees other (List.mem_cons_of_mem _ hother))
                  hleft.2 hright.2 hname

/-- A tree proves at most one instance of a goal.  The induction is on the
tree: its children determine the body, which has the head's variables. -/
theorem Proves.agree (hstore : theory.All Clause.RangeRestricted) {tree : ProofTree}
    {goal : Fact} {left right : Valuation} (hleft : tree.Proves theory goal left)
    (hright : tree.Proves theory goal right) :
    ∀ name ∈ goal.occurrences, left name = right name := by
  suffices hsame : goal.toTerm.eval left = goal.toTerm.eval right from
    (Term.eval_eq_iff goal.toTerm left right).mp hsame
  induction tree generalizing goal left right with
  | fact position =>
      rw [Proves] at hleft hright
      obtain ⟨stored, inner, hclause, hinner⟩ := hleft
      obtain ⟨stored', inner', hclause', hinner'⟩ := hright
      obtain rfl : stored = stored' := by
        simpa using hclause.symm.trans hclause'
      have hground : stored.toTerm.isGround = true :=
        hstore goal.signature _ (List.mem_of_getElem? hclause)
      rw [← hinner, ← hinner']
      exact (Term.eval_eq_iff stored.toTerm inner inner').mpr fun name hname =>
        absurd hname (Term.isGround_iff.mp hground name)
  | rule position children ih =>
      rw [Proves] at hleft hright
      obtain ⟨head, body, inner, hclause, hinner, hchildren⟩ := hleft
      obtain ⟨head', body', inner', hclause', hinner', hchildren'⟩ := hright
      obtain ⟨rfl, rfl⟩ : head = head' ∧ body = body' := by
        simpa using hclause.symm.trans hclause'
      have hhead : head.occurrences ⊆ Query.occurrences body :=
        hstore goal.signature _ (List.mem_of_getElem? hclause)
      rw [← hinner, ← hinner']
      apply (Term.eval_eq_iff head.toTerm inner inner').mpr
      intro name hname
      refine provesAll_agree (fun child hchild goal left right hleft hright => ?_) hchildren
        hchildren' (hhead hname)
      exact (Term.eval_eq_iff goal.toTerm left right).mp (ih child hchild hleft hright)

theorem ProvesAll.agree (hstore : theory.All Clause.RangeRestricted) {trees : List ProofTree}
    {goals : Query} {left right : Valuation} (hleft : ProvesAll theory trees goals left)
    (hright : ProvesAll theory trees goals right) {name : Var}
    (hname : name ∈ Query.occurrences goals) : left name = right name :=
  provesAll_agree (fun _ _ _ _ _ h h' => h.agree hstore h') hleft hright hname

end ProofTree

/-- The trees that start with a clause at some position, where the forests for
a rule's body are given. -/
def treesBy (inner : Query → List (List ProofTree)) : Clause × Nat → List ProofTree
  | (.fact _, position) => [.fact position]
  | (.rule _ body, position) => (inner body).map (.rule position)

def forestsWith (theory : Theory) (inner : Query → List (List ProofTree)) :
    Query → List (List ProofTree)
  | [] => [[]]
  | .fact goal :: rest =>
      ((theory.lookup goal.signature).zipIdx.flatMap (treesBy inner)).flatMap fun tree =>
        (forestsWith theory inner rest).map (tree :: ·)
  | .assign _ _ :: _ => []

/-- All forests for some goals that nest at most this many rules, whether or
not the clauses fit the goals. -/
def forests (theory : Theory) : Nat → Query → List (List ProofTree)
  | 0 => forestsWith theory fun _ => []
  | levels + 1 => forestsWith theory (forests theory levels)

theorem forestsWith_rename {theory : Theory} {inner : Query → List (List ProofTree)}
    (image : Var → Var) (goals : Query) :
    forestsWith theory inner (Query.rename image goals) = forestsWith theory inner goals := by
  induction goals with
  | nil => rfl
  | cons goal goals ih =>
      cases goal with
      | assign target value => rfl
      | fact goal =>
          rw [Query.rename] at ih
          simp only [Query.rename, List.map_cons, Goal.rename, forestsWith, ih,
            goal.signature_rename]

theorem forests_rename {theory : Theory} (image : Var → Var) (levels : Nat) (goals : Query) :
    forests theory levels (Query.rename image goals) = forests theory levels goals := by
  cases levels <;> exact forestsWith_rename image goals

namespace ProofTree

variable {theory : Theory} {inner : Query → List (List ProofTree)}

/-- One induction on the goals serves all levels: what is shown of the forests
for bodies holds of the forests for goals. -/
theorem mem_forestsWith {levels : Nat} {trees : List ProofTree} {goals : Query}
    {valuation : Valuation}
    (htrees : ∀ tree ∈ trees, ∀ (goal : Fact) (valuation : Valuation),
      tree.Proves theory goal valuation → tree.depth ≤ levels →
        tree ∈ (theory.lookup goal.signature).zipIdx.flatMap (treesBy inner))
    (hproves : ProvesAll theory trees goals valuation) (hdepth : depthAll trees ≤ levels) :
    trees ∈ forestsWith theory inner goals := by
  induction trees generalizing goals with
  | nil =>
      cases goals with
      | nil => simp [forestsWith]
      | cons goal goals => simp [ProvesAll] at hproves
  | cons tree trees ih =>
      cases goals with
      | nil => simp [ProvesAll] at hproves
      | cons goal goals =>
          cases goal with
          | assign target value => simp [ProvesAll] at hproves
          | fact goal =>
              rw [ProvesAll] at hproves
              rw [depthAll, Nat.max_le] at hdepth
              rw [forestsWith, List.mem_flatMap]
              refine ⟨tree, htrees tree List.mem_cons_self goal valuation hproves.1 hdepth.1, ?_⟩
              refine List.mem_map_of_mem (ih (fun other hother => ?_) hproves.2 hdepth.2)
              exact htrees other (List.mem_cons_of_mem _ hother)

theorem mem_treesBy_fact {position : Nat} {signature : Signature} {stored : Fact}
    (hclause : (theory.lookup signature)[position]? = some (.fact stored)) :
    ProofTree.fact position ∈ (theory.lookup signature).zipIdx.flatMap (treesBy inner) :=
  List.mem_flatMap.mpr ⟨(.fact stored, position),
    List.mk_mem_zipIdx_iff_getElem?.mpr hclause, List.mem_singleton.mpr rfl⟩

theorem mem_treesBy_rule {position : Nat} {signature : Signature} {head : Fact} {body : Query}
    (hclause : (theory.lookup signature)[position]? = some (.rule head body))
    {children : List ProofTree} (hchildren : children ∈ inner body) :
    ProofTree.rule position children ∈
      (theory.lookup signature).zipIdx.flatMap (treesBy inner) :=
  List.mem_flatMap.mpr ⟨(.rule head body, position),
    List.mk_mem_zipIdx_iff_getElem?.mpr hclause, List.mem_map_of_mem hchildren⟩

/-- Every forest that proves something is among the forests of its depth. -/
theorem mem_forests {levels : Nat} {trees : List ProofTree} {goals : Query}
    {valuation : Valuation} (hproves : ProvesAll theory trees goals valuation)
    (hdepth : depthAll trees ≤ levels) : trees ∈ forests theory levels goals := by
  induction levels generalizing trees goals valuation with
  | zero =>
      refine mem_forestsWith (fun tree _ goal valuation hproves hdepth => ?_) hproves hdepth
      cases tree with
      | fact position =>
          rw [Proves] at hproves
          obtain ⟨stored, _, hclause, _⟩ := hproves
          exact mem_treesBy_fact hclause
      | rule position children => simp [depth] at hdepth
  | succ levels ih =>
      refine mem_forestsWith (fun tree _ goal valuation hproves hdepth => ?_) hproves hdepth
      cases tree with
      | fact position =>
          rw [Proves] at hproves
          obtain ⟨stored, _, hclause, _⟩ := hproves
          exact mem_treesBy_fact hclause
      | rule position children =>
          rw [Proves] at hproves
          obtain ⟨head, body, inner, hclause, _, hchildren⟩ := hproves
          rw [depth, Nat.add_le_add_iff_right] at hdepth
          exact mem_treesBy_rule hclause (ih hchildren hdepth)

theorem depthAll_le_of_mem_forestsWith {levels : Nat}
    (hinner : ∀ goals, ∀ children ∈ inner goals, depthAll children < levels)
    {trees : List ProofTree} {goals : Query} (htrees : trees ∈ forestsWith theory inner goals) :
    depthAll trees ≤ levels := by
  induction goals generalizing trees with
  | nil =>
      rw [List.mem_singleton.mp htrees, depthAll]
      exact Nat.zero_le _
  | cons goal goals ih =>
      cases goal with
      | assign target value => simp [forestsWith] at htrees
      | fact goal =>
          rw [forestsWith, List.mem_flatMap] at htrees
          obtain ⟨tree, htree, hforest⟩ := htrees
          obtain ⟨rest, hrest, rfl⟩ := List.mem_map.mp hforest
          rw [depthAll, Nat.max_le]
          refine ⟨?_, ih hrest⟩
          obtain ⟨⟨clause, position⟩, _, hclause⟩ := List.mem_flatMap.mp htree
          cases clause with
          | fact stored =>
              rw [List.mem_singleton.mp hclause, depth]
              exact Nat.zero_le _
          | rule head body =>
              obtain ⟨children, hchildren, rfl⟩ := List.mem_map.mp hclause
              rw [depth]
              exact hinner body children hchildren

theorem depthAll_le_of_mem_forests {levels : Nat} {trees : List ProofTree} {goals : Query}
    (htrees : trees ∈ forests theory levels goals) : depthAll trees ≤ levels := by
  induction levels generalizing trees goals with
  | zero => exact depthAll_le_of_mem_forestsWith (by simp) htrees
  | succ levels ih =>
      exact depthAll_le_of_mem_forestsWith
        (fun goals children hchildren => Nat.lt_succ_of_le (ih hchildren)) htrees

end ProofTree

/-- At the first difference the first list has the smaller number. -/
def Precedes : List Nat → List Nat → Prop
  | left :: lefts, right :: rights => left < right ∨ left = right ∧ Precedes lefts rights
  | _, _ => False

theorem Precedes.lt {lefts rights : List Nat} (hprecedes : Precedes lefts rights) :
    lefts < rights := by
  induction lefts generalizing rights with
  | nil => exact hprecedes.elim
  | cons left lefts ih =>
      cases rights with
      | nil => exact hprecedes.elim
      | cons right rights =>
          rw [List.cons_lt_cons_iff]
          exact hprecedes.imp_right fun hrest => ⟨hrest.1, ih hrest.2⟩

/-- What follows the first difference does not matter. -/
theorem Precedes.append {lefts rights : List Nat} (hprecedes : Precedes lefts rights)
    (more more' : List Nat) : Precedes (lefts ++ more) (rights ++ more') := by
  induction lefts generalizing rights with
  | nil => exact hprecedes.elim
  | cons left lefts ih =>
      cases rights with
      | nil => exact hprecedes.elim
      | cons right rights => exact hprecedes.imp_right fun hrest => ⟨hrest.1, ih hrest.2⟩

theorem Precedes.prepend {lefts rights : List Nat} (hprecedes : Precedes lefts rights)
    (front : List Nat) : Precedes (front ++ lefts) (front ++ rights) := by
  induction front with
  | nil => exact hprecedes
  | cons first front ih => exact Or.inr ⟨rfl, ih⟩

namespace ProofTree

variable {theory : Theory} {inner : Query → List (List ProofTree)}

/-- Forests are in the order of the positions chosen. -/
def Ordered (trees : List (List ProofTree)) : Prop :=
  trees.Pairwise fun left right => Precedes (positionsAll left) (positionsAll right)

theorem head_positions_treesBy {entry : Clause × Nat} {tree : ProofTree}
    (htree : tree ∈ treesBy inner entry) : ∃ rest, tree.positions = entry.2 :: rest := by
  obtain ⟨clause, position⟩ := entry
  cases clause with
  | fact stored => exact ⟨[], by rw [List.mem_singleton.mp htree, positions]⟩
  | rule head body =>
      obtain ⟨children, _, rfl⟩ := List.mem_map.mp htree
      exact ⟨positionsAll children, by rw [positions]⟩

theorem pairwise_treesBy (hinner : ∀ goals, Ordered (inner goals)) (clauses : List Clause)
    (start : Nat) :
    ((clauses.zipIdx start).flatMap (treesBy inner)).Pairwise fun left right =>
      Precedes left.positions right.positions := by
  rw [List.pairwise_flatMap]
  constructor
  · rintro ⟨clause, position⟩ _
    cases clause with
    | fact stored => exact List.pairwise_singleton _ _
    | rule head body =>
        refine List.pairwise_map.mpr ((hinner body).imp fun {left right} hprecedes => ?_)
        rw [positions, positions]
        exact Or.inr ⟨rfl, hprecedes⟩
  · induction clauses generalizing start with
    | nil => exact List.Pairwise.nil
    | cons clause clauses ih =>
        rw [List.zipIdx_cons, List.pairwise_cons]
        refine ⟨fun entry hentry left hleft right hright => ?_, ih (start + 1)⟩
        obtain ⟨rest, hpositions⟩ := head_positions_treesBy hleft
        obtain ⟨rest', hpositions'⟩ := head_positions_treesBy hright
        rw [hpositions, hpositions']
        exact Or.inl (List.le_snd_of_mem_zipIdx hentry)

theorem ordered_forestsWith (hinner : ∀ goals, Ordered (inner goals)) (goals : Query) :
    Ordered (forestsWith theory inner goals) := by
  induction goals with
  | nil => exact List.pairwise_singleton _ _
  | cons goal goals ih =>
      cases goal with
      | assign target value => exact List.Pairwise.nil
      | fact goal =>
          rw [Ordered, forestsWith, List.pairwise_flatMap]
          refine ⟨fun tree _ => List.pairwise_map.mpr (ih.imp fun {left right} hrest => ?_),
            (pairwise_treesBy hinner _ 0).imp fun {left right} hfirst => ?_⟩
          · rw [positionsAll, positionsAll]
            exact hrest.prepend _
          · intro forest hforest forest' hforest'
            obtain ⟨rest, _, rfl⟩ := List.mem_map.mp hforest
            obtain ⟨rest', _, rfl⟩ := List.mem_map.mp hforest'
            rw [positionsAll, positionsAll]
            exact hfirst.append _ _

theorem ordered_forests (levels : Nat) (goals : Query) :
    Ordered (forests theory levels goals) := by
  induction levels generalizing goals with
  | zero => exact ordered_forestsWith (fun _ => List.Pairwise.nil) goals
  | succ levels ih => exact ordered_forestsWith ih goals

end ProofTree

end Horn
