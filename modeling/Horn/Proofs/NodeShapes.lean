/-
The trees of nodes that stand for statements.  A statement is decoded from its own
tree, and from those that differ from it in nothing but payloads of factors which do
not count; every other tree is refused.
-/
import Mathlib.Data.List.Forall2
import Mathlib.Tactic.SplitIfs
import Horn.Proofs.NodeForm

namespace Horn

namespace Node

mutual

/-- The tree with only the payload that counts in each factor: a variable before a
number, and a number before an expression. -/
def counted : Node → Node
  | .fact functor args => .fact functor (countedAll args)
  | .rule head body => .rule head.counted body.counted
  | .query goals => .query (countedAll goals)
  | .var name => .var name
  | .atom text => .atom text
  | .str text => .str text
  | .num value => .num value
  | .assign target value => .assign target.counted value.counted
  | .sum left op right => .sum left.counted op (counted? right)
  | .product left op right => .product left.counted op (counted? right)
  | .factor (some name) _ _ => .factor (some name.counted) none none
  | .factor none (some value) _ => .factor none (some value.counted) none
  | .factor none none inner => .factor none none (counted? inner)

def countedAll : List Node → List Node
  | [] => []
  | node :: rest => node.counted :: countedAll rest

def counted? : Option Node → Option Node
  | none => none
  | some node => some node.counted

end

/-- The second tree is the first with payloads of any shape added to factors that
already have one which counts before them. -/
inductive Padded : Node → Node → Prop
  | fact (functor : String) {args args' : List Node} (hargs : List.Forall₂ Padded args args') :
      Padded (.fact functor args) (.fact functor args')
  | rule {head head' body body' : Node} (hhead : Padded head head') (hbody : Padded body body') :
      Padded (.rule head body) (.rule head' body')
  | query {goals goals' : List Node} (hgoals : List.Forall₂ Padded goals goals') :
      Padded (.query goals) (.query goals')
  | var (name : Var) : Padded (.var name) (.var name)
  | atom (text : String) : Padded (.atom text) (.atom text)
  | str (text : String) : Padded (.str text) (.str text)
  | num (value : Float) : Padded (.num value) (.num value)
  | assign {target target' value value' : Node} (htarget : Padded target target')
      (hvalue : Padded value value') : Padded (.assign target value) (.assign target' value')
  | sum (op : UInt8) {left left' : Node} {right right' : Option Node} (hleft : Padded left left')
      (hright : Option.Rel Padded right right') :
      Padded (.sum left op right) (.sum left' op right')
  | product (op : UInt8) {left left' : Node} {right right' : Option Node}
      (hleft : Padded left left') (hright : Option.Rel Padded right right') :
      Padded (.product left op right) (.product left' op right')
  | factorVar {name name' : Node} (number inner : Option Node) (hname : Padded name name') :
      Padded (.factor (some name) none none) (.factor (some name') number inner)
  | factorNum {value value' : Node} (inner : Option Node) (hvalue : Padded value value') :
      Padded (.factor none (some value) none) (.factor none (some value') inner)
  | factorInner {inner inner' : Option Node} (hinner : Option.Rel Padded inner inner') :
      Padded (.factor none none inner) (.factor none none inner')

theorem countedAll_eq_map (nodes : List Node) : countedAll nodes = nodes.map counted := by
  induction nodes with
  | nil => rfl
  | cons node nodes ih => rw [countedAll, ih, List.map_cons]

/-- A tree is what counts in it, and the rest is padding. -/
theorem padded_counted (node : Node) : Padded node.counted node := by
  have hall {nodes : List Node} (hnodes : ∀ node ∈ nodes, Padded node.counted node) :
      List.Forall₂ Padded (countedAll nodes) nodes := by
    rw [countedAll_eq_map, List.forall₂_map_left_iff, List.forall₂_same]
    exact hnodes
  have hsome {payload : Option Node} (hpayload : ∀ node ∈ payload, Padded node.counted node) :
      Option.Rel Padded (counted? payload) payload := by
    cases payload with
    | none => exact .none
    | some node => exact .some (hpayload node rfl)
  induction node with
  | fact functor args ih => exact .fact functor (hall ih)
  | rule head body ihhead ihbody => exact .rule ihhead ihbody
  | query goals ih => exact .query (hall ih)
  | var name => exact .var name
  | atom text => exact .atom text
  | str text => exact .str text
  | num value => exact .num value
  | assign target value ihtarget ihvalue => exact .assign ihtarget ihvalue
  | sum left op right ihleft ihright => exact .sum op ihleft (hsome ihright)
  | product left op right ihleft ihright => exact .product op ihleft (hsome ihright)
  | factor name number inner ihname ihnumber ihinner =>
      cases name with
      | some name => exact .factorVar number inner (ihname name rfl)
      | none =>
          cases number with
          | some value => exact .factorNum inner (ihnumber value rfl)
          | none => exact .factorInner (hsome ihinner)

/-- Padding leaves what counts. -/
theorem Padded.counted_eq {kept full : Node} (hpadded : Padded kept full) :
    full.counted = kept.counted := by
  have hall {nodes nodes' : List Node} (hnodes : List.Forall₂ Padded nodes nodes')
      (ih : ∀ node ∈ nodes, ∀ full, Padded node full → full.counted = node.counted) :
      countedAll nodes' = countedAll nodes := by
    induction hnodes with
    | nil => rfl
    | cons hnode _ ihnodes =>
        obtain ⟨ihnode, ihrest⟩ := List.forall_mem_cons.mp ih
        rw [countedAll, countedAll, ihnode _ hnode, ihnodes ihrest]
  have hsome {payload payload' : Option Node} (hpayload : Option.Rel Padded payload payload')
      (ih : ∀ node ∈ payload, ∀ full, Padded node full → full.counted = node.counted) :
      counted? payload' = counted? payload := by
    cases hpayload with
    | none => rfl
    | some hnode => rw [counted?, counted?, ih _ rfl _ hnode]
  induction kept generalizing full with
  | fact functor args ih =>
      cases hpadded with
      | fact _ hargs => rw [counted, counted, hall hargs fun node hnode _ => ih node hnode]
  | rule head body ihhead ihbody =>
      cases hpadded with
      | rule hhead hbody => rw [counted, counted, ihhead hhead, ihbody hbody]
  | query goals ih =>
      cases hpadded with
      | query hgoals => rw [counted, counted, hall hgoals fun node hnode _ => ih node hnode]
  | var name => cases hpadded with | var => rfl
  | atom text => cases hpadded with | atom => rfl
  | str text => cases hpadded with | str => rfl
  | num value => cases hpadded with | num => rfl
  | assign target value ihtarget ihvalue =>
      cases hpadded with
      | assign htarget hvalue => rw [counted, counted, ihtarget htarget, ihvalue hvalue]
  | sum left op right ihleft ihright =>
      cases hpadded with
      | sum _ hleft hright =>
          rw [counted, counted, ihleft hleft, hsome hright fun node hnode _ => ihright node hnode]
  | product left op right ihleft ihright =>
      cases hpadded with
      | product _ hleft hright =>
          rw [counted, counted, ihleft hleft, hsome hright fun node hnode _ => ihright node hnode]
  | factor name number inner ihname ihnumber ihinner =>
      cases hpadded with
      | factorVar _ _ hname => rw [counted, counted, ihname _ rfl hname]
      | factorNum _ hvalue => rw [counted, counted, ihnumber _ rfl hvalue]
      | factorInner hinner =>
          rw [counted, counted, hsome hinner fun node hnode _ => ihinner node hnode]

theorem toVar_counted (node : Node) : toVar node.counted = toVar node := by
  cases node with
  | factor name number inner => cases name <;> cases number <;> rfl
  | _ => rfl

theorem toNumber_counted (node : Node) : toNumber node.counted = toNumber node := by
  cases node with
  | factor name number inner => cases name <;> cases number <;> rfl
  | _ => rfl

theorem toTerms_countedAll {nodes : List Node}
    (hnodes : ∀ node ∈ nodes, toTerm node.counted = toTerm node) :
    toTerms (countedAll nodes) = toTerms nodes := by
  induction nodes with
  | nil => rfl
  | cons node nodes ih =>
      obtain ⟨hnode, hrest⟩ := List.forall_mem_cons.mp hnodes
      rw [countedAll, toTerms, toTerms, hnode, ih hrest]

theorem toTerm_counted (node : Node) : toTerm node.counted = toTerm node := by
  induction node with
  | fact functor args ih => rw [counted, toTerm, toTerm, toTerms_countedAll ih]
  | factor name number inner => cases name <;> cases number <;> rfl
  | _ => rfl

theorem toTerms_args_counted (args : List Node) : toTerms (countedAll args) = toTerms args :=
  toTerms_countedAll fun node _ => toTerm_counted node

theorem toFact_counted (node : Node) : toFact node.counted = toFact node := by
  cases node with
  | fact functor args => rw [counted, toFact, toFact, toTerms_args_counted]
  | factor name number inner => cases name <;> cases number <;> rfl
  | _ => rfl

mutual

theorem toFactor_counted (node : Node) : toFactor node.counted = toFactor node := by
  cases node with
  | factor name number inner =>
      cases name with
      | some name => rw [counted, toFactor, toFactor, toVar_counted]
      | none =>
          cases number with
          | some value => rw [counted, toFactor, toFactor, toNumber_counted]
          | none =>
              cases inner with
              | some expr => rw [counted, counted?, toFactor, toFactor, toExpr_counted expr]
              | none => rfl
  | _ => rfl

theorem toProduct_counted (node : Node) : toProduct node.counted = toProduct node := by
  cases node with
  | product left op right =>
      cases right with
      | none => rw [counted, counted?, toProduct, toProduct, toFactor_counted left]
      | some right =>
          rw [counted, counted?, toProduct, toProduct, toFactor_counted left,
            toFactor_counted right]
  | factor name number inner => cases name <;> cases number <;> rfl
  | _ => rfl

theorem toExpr_counted (node : Node) : toExpr node.counted = toExpr node := by
  cases node with
  | sum left op right =>
      cases right with
      | none => rw [counted, counted?, toExpr, toExpr, toProduct_counted left]
      | some right =>
          rw [counted, counted?, toExpr, toExpr, toProduct_counted left, toProduct_counted right]
  | factor name number inner => cases name <;> cases number <;> rfl
  | _ => rfl

end

theorem toGoal_counted (node : Node) : toGoal node.counted = toGoal node := by
  cases node with
  | fact functor args => rw [counted, toGoal, toGoal, toTerms_args_counted]
  | assign target value => rw [counted, toGoal, toGoal, toVar_counted, toExpr_counted]
  | factor name number inner => cases name <;> cases number <;> rfl
  | _ => rfl

theorem toQuery_counted (node : Node) : toQuery node.counted = toQuery node := by
  cases node with
  | query goals =>
      rw [counted, toQuery, toQuery]
      induction goals with
      | nil => rfl
      | cons goal goals ih => rw [countedAll, convertAll, convertAll, toGoal_counted, ih]
  | factor name number inner => cases name <;> cases number <;> rfl
  | _ => rfl

/-- What does not count changes neither the statement nor the error. -/
theorem toStatement_counted (node : Node) : toStatement node.counted = toStatement node := by
  cases node with
  | fact functor args => rw [counted, toStatement, toStatement, toTerms_args_counted]
  | rule head body => rw [counted, toStatement, toStatement, toFact_counted, toQuery_counted]
  | query goals =>
      have hgoals := toQuery_counted (.query goals)
      rw [counted] at hgoals ⊢
      rw [toStatement, toStatement, hgoals]
  | factor name number inner => cases name <;> cases number <;> rfl
  | _ => rfl

theorem exists_of_bind_eq_ok {α β : Type} {first : Except NodeError α}
    {next : α → Except NodeError β} {result : β} (hresult : first >>= next = .ok result) :
    ∃ value, first = .ok value ∧ next value = .ok result := by
  cases first with
  | error cause => cases hresult
  | ok value => exact ⟨value, rfl, hresult⟩

theorem counted_eq_of_toVar {node : Node} {name : Var} (hvar : toVar node = .ok name) :
    node.counted = .var name := by
  cases node with
  | var other => cases hvar; rfl
  | _ => cases hvar

theorem counted_eq_of_toNumber {node : Node} {value : Float} (hvalue : toNumber node = .ok value) :
    node.counted = .num value := by
  cases node with
  | num other => cases hvalue; rfl
  | _ => cases hvalue

theorem sumCode_of_ofCode {code : UInt8} {op : Option SumOp} (hop : SumOp.ofCode code = .ok op) :
    SumOp.code op = code := by
  rw [SumOp.ofCode] at hop
  split_ifs at hop with hadd hsubtract hnone
  · cases hop; exact hadd.symm
  · cases hop; exact hsubtract.symm
  · cases hop; exact hnone.symm

theorem productCode_of_ofCode {code : UInt8} {op : Option ProductOp}
    (hop : ProductOp.ofCode code = .ok op) : ProductOp.code op = code := by
  rw [ProductOp.ofCode] at hop
  split_ifs at hop with hmultiply hdivide hnone
  · cases hop; exact hmultiply.symm
  · cases hop; exact hdivide.symm
  · cases hop; exact hnone.symm

theorem countedAll_eq_of_toTerms {nodes : List Node} {terms : List Term}
    (hnodes : ∀ node ∈ nodes, ∀ term, toTerm node = .ok term → node.counted = term.toNode)
    (hterms : toTerms nodes = .ok terms) : countedAll nodes = Term.toNodes terms := by
  induction nodes generalizing terms with
  | nil => cases hterms; rfl
  | cons node nodes ih =>
      obtain ⟨hnode, hrest⟩ := List.forall_mem_cons.mp hnodes
      rw [toTerms] at hterms
      obtain ⟨term, hterm, hterms⟩ := exists_of_bind_eq_ok hterms
      obtain ⟨rest, hmore, hterms⟩ := exists_of_bind_eq_ok hterms
      cases hterms
      rw [countedAll, Term.toNodes, hnode term hterm, ih hrest hmore]

theorem counted_eq_of_toTerm {node : Node} {term : Term} (hterm : toTerm node = .ok term) :
    node.counted = term.toNode := by
  induction node generalizing term with
  | fact functor args ih =>
      rw [toTerm] at hterm
      obtain ⟨terms, hterms, hterm⟩ := exists_of_bind_eq_ok hterm
      cases hterm
      rw [counted, Term.toNode, countedAll_eq_of_toTerms (fun node hnode _ => ih node hnode) hterms]
  | var name => cases hterm; rfl
  | atom text => cases hterm; rfl
  | str text => cases hterm; rfl
  | num value => cases hterm; rfl
  | _ => cases hterm

theorem countedAll_eq_of_args {args : List Node} {terms : List Term}
    (hterms : toTerms args = .ok terms) : countedAll args = Term.toNodes terms :=
  countedAll_eq_of_toTerms (fun _ _ _ hterm => counted_eq_of_toTerm hterm) hterms

theorem counted_eq_of_toFact {node : Node} {fact : Fact} (hfact : toFact node = .ok fact) :
    node.counted = fact.toNode := by
  cases node with
  | fact functor args =>
      rw [toFact] at hfact
      obtain ⟨terms, hterms, hfact⟩ := exists_of_bind_eq_ok hfact
      cases hfact
      rw [counted, Fact.toNode, countedAll_eq_of_args hterms]
  | _ => cases hfact

mutual

theorem counted_eq_of_toFactor (node : Node) {factor : Factor}
    (hfactor : toFactor node = .ok factor) : node.counted = factor.toNode := by
  cases node with
  | factor name number inner =>
      cases name with
      | some name =>
          rw [toFactor] at hfactor
          obtain ⟨var, hvar, hfactor⟩ := exists_of_bind_eq_ok hfactor
          cases hfactor
          rw [counted, Factor.toNode, counted_eq_of_toVar hvar]
      | none =>
          cases number with
          | some number =>
              rw [toFactor] at hfactor
              obtain ⟨value, hvalue, hfactor⟩ := exists_of_bind_eq_ok hfactor
              cases hfactor
              rw [counted, Factor.toNode, counted_eq_of_toNumber hvalue]
          | none =>
              cases inner with
              | some inner =>
                  rw [toFactor] at hfactor
                  obtain ⟨expr, hexpr, hfactor⟩ := exists_of_bind_eq_ok hfactor
                  cases hfactor
                  rw [counted, counted?, Factor.toNode, counted_eq_of_toExpr inner hexpr]
              | none => cases hfactor
  | _ => cases hfactor

theorem counted_eq_of_toProduct (node : Node) {product : Product}
    (hproduct : toProduct node = .ok product) : node.counted = product.toNode := by
  cases node with
  | product left code right =>
      cases right with
      | none =>
          rw [toProduct] at hproduct
          obtain ⟨first, hfirst, hproduct⟩ := exists_of_bind_eq_ok hproduct
          obtain ⟨op, hop, hproduct⟩ := exists_of_bind_eq_ok hproduct
          cases hproduct
          rw [counted, counted?, Product.toNode, counted_eq_of_toFactor left hfirst,
            productCode_of_ofCode hop]
      | some right =>
          rw [toProduct] at hproduct
          obtain ⟨first, hfirst, hproduct⟩ := exists_of_bind_eq_ok hproduct
          obtain ⟨op, hop, hproduct⟩ := exists_of_bind_eq_ok hproduct
          obtain ⟨second, hsecond, hproduct⟩ := exists_of_bind_eq_ok hproduct
          cases hproduct
          rw [counted, counted?, Product.toNode, counted_eq_of_toFactor left hfirst,
            counted_eq_of_toFactor right hsecond, productCode_of_ofCode hop]
  | _ => cases hproduct

theorem counted_eq_of_toExpr (node : Node) {expr : Expr} (hexpr : toExpr node = .ok expr) :
    node.counted = expr.toNode := by
  cases node with
  | sum left code right =>
      cases right with
      | none =>
          rw [toExpr] at hexpr
          obtain ⟨first, hfirst, hexpr⟩ := exists_of_bind_eq_ok hexpr
          obtain ⟨op, hop, hexpr⟩ := exists_of_bind_eq_ok hexpr
          cases hexpr
          rw [counted, counted?, Expr.toNode, counted_eq_of_toProduct left hfirst,
            sumCode_of_ofCode hop]
      | some right =>
          rw [toExpr] at hexpr
          obtain ⟨first, hfirst, hexpr⟩ := exists_of_bind_eq_ok hexpr
          obtain ⟨op, hop, hexpr⟩ := exists_of_bind_eq_ok hexpr
          obtain ⟨second, hsecond, hexpr⟩ := exists_of_bind_eq_ok hexpr
          cases hexpr
          rw [counted, counted?, Expr.toNode, counted_eq_of_toProduct left hfirst,
            counted_eq_of_toProduct right hsecond, sumCode_of_ofCode hop]
  | _ => cases hexpr

end

theorem counted_eq_of_toGoal {node : Node} {goal : Goal} (hgoal : toGoal node = .ok goal) :
    node.counted = goal.toNode := by
  cases node with
  | fact functor args =>
      rw [toGoal] at hgoal
      obtain ⟨terms, hterms, hgoal⟩ := exists_of_bind_eq_ok hgoal
      cases hgoal
      rw [counted, Goal.toNode, Fact.toNode, countedAll_eq_of_args hterms]
  | assign target value =>
      rw [toGoal] at hgoal
      obtain ⟨name, hname, hgoal⟩ := exists_of_bind_eq_ok hgoal
      obtain ⟨expr, hexpr, hgoal⟩ := exists_of_bind_eq_ok hgoal
      cases hgoal
      rw [counted, Goal.toNode, counted_eq_of_toVar hname, counted_eq_of_toExpr value hexpr]
  | _ => cases hgoal

theorem countedAll_eq_of_goals {nodes : List Node} {goals : Query}
    (hgoals : convertAll toGoal nodes = .ok goals) : countedAll nodes = goals.map Goal.toNode := by
  induction nodes generalizing goals with
  | nil => cases hgoals; rfl
  | cons node nodes ih =>
      rw [convertAll] at hgoals
      obtain ⟨goal, hgoal, hgoals⟩ := exists_of_bind_eq_ok hgoals
      obtain ⟨rest, hrest, hgoals⟩ := exists_of_bind_eq_ok hgoals
      cases hgoals
      rw [countedAll, List.map_cons, counted_eq_of_toGoal hgoal, ih hrest]

theorem counted_eq_of_toQuery {node : Node} {goals : Query} (hgoals : toQuery node = .ok goals) :
    node.counted = Query.toNode goals := by
  cases node with
  | query nodes =>
      rw [toQuery] at hgoals
      rw [counted, Query.toNode, countedAll_eq_of_goals hgoals]
  | _ => cases hgoals

theorem counted_eq_of_toStatement {node : Node} {statement : Statement}
    (hstatement : toStatement node = .ok statement) : node.counted = statement.toNode := by
  cases node with
  | fact functor args =>
      rw [toStatement] at hstatement
      obtain ⟨terms, hterms, hstatement⟩ := exists_of_bind_eq_ok hstatement
      cases hstatement
      rw [counted, Statement.toNode, Clause.toNode, Fact.toNode, countedAll_eq_of_args hterms]
  | rule head body =>
      rw [toStatement] at hstatement
      obtain ⟨fact, hfact, hstatement⟩ := exists_of_bind_eq_ok hstatement
      obtain ⟨goals, hgoals, hstatement⟩ := exists_of_bind_eq_ok hstatement
      cases hstatement
      rw [counted, Statement.toNode, Clause.toNode, counted_eq_of_toFact hfact,
        counted_eq_of_toQuery hgoals]
  | query nodes =>
      rw [toStatement] at hstatement
      obtain ⟨goals, hgoals, hstatement⟩ := exists_of_bind_eq_ok hstatement
      cases hstatement
      exact counted_eq_of_toQuery hgoals
  | _ => cases hstatement

theorem toStatement_eq_ok_iff {node : Node} {statement : Statement} :
    toStatement node = .ok statement ↔ node.counted = statement.toNode := by
  constructor
  · exact counted_eq_of_toStatement
  · intro hcounted
    rw [← toStatement_counted, hcounted, toStatement_toNode]

/-- Nothing in the tree of a statement is padding. -/
theorem counted_toNode (statement : Statement) : statement.toNode.counted = statement.toNode :=
  counted_eq_of_toStatement (toStatement_toNode statement)

theorem padded_toNode_iff {node : Node} {statement : Statement} :
    Padded statement.toNode node ↔ node.counted = statement.toNode := by
  constructor
  · intro hpadded
    rw [hpadded.counted_eq, counted_toNode]
  · intro hcounted
    rw [← hcounted]
    exact node.padded_counted

end Node

/-- Decoding accepts exactly the shapes that statements are written in: a tree is
decoded to a statement if and only if what counts in it is the statement's own tree,
so if and only if it is that tree with payloads of any shape added to factors that have
one which counts before them, and every tree that is none of these gives an error. -/
theorem decoding_accepts_written_shapes (node : Node) :
    (∀ statement : Statement,
      node.toStatement = .ok statement ↔ node.counted = statement.toNode) ∧
    (∀ statement : Statement,
      node.toStatement = .ok statement ↔ Node.Padded statement.toNode node) ∧
    ((∃ error, node.toStatement = .error error) ↔
      ∀ statement : Statement, ¬ Node.Padded statement.toNode node) := by
  have hpadded : ∀ statement : Statement,
      node.toStatement = .ok statement ↔ Node.Padded statement.toNode node := fun statement =>
    Node.toStatement_eq_ok_iff.trans Node.padded_toNode_iff.symm
  refine ⟨fun statement => Node.toStatement_eq_ok_iff, hpadded, ?_⟩
  cases hresult : node.toStatement with
  | ok decoded =>
      simp only [reduceCtorEq, exists_false, false_iff, not_forall, not_not]
      exact ⟨decoded, (hpadded decoded).mp hresult⟩
  | error cause =>
      simp only [Except.error.injEq, exists_eq', true_iff]
      intro statement hstatement
      rw [(hpadded statement).mpr hstatement] at hresult
      cases hresult

/-- A query in the place of a number does no harm beside a variable. -/
example :
    (Node.query [.assign (.var "X")
      (.sum (.product (.factor (some (.var "Y")) (some (.query [])) none)
        (ProductOp.code none) none) (SumOp.code none) none)]).toStatement =
      .ok (.query [.assign "X" (.single (.single (.var "Y")))]) := rfl

end Horn
