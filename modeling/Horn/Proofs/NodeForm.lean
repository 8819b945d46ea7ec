/-
Nodes and their JSON form, and statements and their nodes.  A written node
stands for itself, and the node of a statement for that statement.
-/
import Horn.Compiled.Form
import Horn.Proofs.JsonText
import Horn.Proofs.Tree

namespace Horn

/-- Induction on a node with one hypothesis for each node inside it. -/
@[induction_eliminator]
theorem Node.inductionOn {motive : Node → Prop}
    (fact : ∀ functor args, (∀ arg ∈ args, motive arg) → motive (.fact functor args))
    (rule : ∀ head body, motive head → motive body → motive (.rule head body))
    (query : ∀ goals, (∀ goal ∈ goals, motive goal) → motive (.query goals))
    (var : ∀ name, motive (.var name)) (atom : ∀ text, motive (.atom text))
    (str : ∀ text, motive (.str text)) (num : ∀ value, motive (.num value))
    (assign : ∀ target value, motive target → motive value → motive (.assign target value))
    (sum : ∀ left op right, motive left → (∀ node ∈ right, motive node) →
      motive (.sum left op right))
    (product : ∀ left op right, motive left → (∀ node ∈ right, motive node) →
      motive (.product left op right))
    (factor : ∀ name number inner, (∀ node ∈ name, motive node) →
      (∀ node ∈ number, motive node) → (∀ node ∈ inner, motive node) →
      motive (.factor name number inner))
    (node : Node) : motive node := by
  refine @Node.rec motive (fun nodes => ∀ node ∈ nodes, motive node)
    (fun payload => ∀ node ∈ payload, motive node)
    fact rule query var atom str num assign sum product factor ?_ ?_ ?_ ?_ node
  · simp
  · intro head tail hhead htail other hother
    rcases List.mem_cons.mp hother with rfl | hother
    · exact hhead
    · exact htail other hother
  · simp
  · intro payload hpayload other hother
    cases hother
    exact hpayload

/-- The members of a written node, beside its tag. -/
def Node.members : Node → List (String × Json)
  | .fact functor args => [("f", .string functor), ("a", .array (Node.toJsons args))]
  | .rule head body => [("h", head.toJson), ("b", body.toJson)]
  | .query goals => [("b", .array (Node.toJsons goals))]
  | .var name => [("v", .string name)]
  | .atom text => [("v", .string text)]
  | .str text => [("v", .string text)]
  | .num value => [("v", .real value)]
  | .assign target value => [("v", target.toJson), ("e", value.toJson)]
  | .sum left op right =>
      [("l", left.toJson), ("o", .whole op.toNat)] ++ optionalField "r" (Node.toJson? right)
  | .product left op right =>
      [("l", left.toJson), ("o", .whole op.toNat)] ++ optionalField "r" (Node.toJson? right)
  | .factor name number inner =>
      optionalField "v" (Node.toJson? name) ++ optionalField "n" (Node.toJson? number) ++
        optionalField "e" (Node.toJson? inner)

theorem Node.toJson_eq (node : Node) : node.toJson = node.tag.wrap node.members := by
  cases node <;> rw [toJson] <;> rfl

theorem Node.toJsons_eq_map (nodes : List Node) : Node.toJsons nodes = nodes.map Node.toJson := by
  induction nodes with
  | nil => rfl
  | cons node nodes ih => simp [Node.toJsons, ih]

theorem mem_optionalField {name : String} {value : Option Json} {member : String × Json} :
    member ∈ optionalField name value ↔ member.1 = name ∧ value = some member.2 := by
  obtain ⟨other, json⟩ := member
  cases value with
  | none => simp [optionalField]
  | some value =>
      simp only [optionalField, List.mem_singleton, Prod.mk.injEq, Option.some.injEq]
      exact and_congr_right fun _ => eq_comm

/-- No member but the tag has the tag's name. -/
theorem Node.name_ne_tagName {node : Node} {member : String × Json}
    (hmember : member ∈ node.members) : member.1 ≠ tagName := by
  have hname : member.1 ∈ ["f", "a", "h", "b", "v", "e", "l", "o", "r", "n"] := by
    cases node <;>
      simp only [members, List.mem_append, List.mem_cons, List.not_mem_nil, or_false,
        mem_optionalField] at hmember ⊢ <;> grind
  rintro heq
  rw [heq] at hname
  revert hname
  decide

theorem Tag.ofName?_name (tag : Tag) : Tag.ofName? tag.name = some tag := by
  cases tag <;> rfl

/-- A value that stands for a node and for nothing else. -/
def Reading.ofNode (node : Node) : Reading :=
  { Reading.nothing with node := some node }

theorem Json.interpretMembers_eq_map (members : List (String × Json)) :
    Json.interpretMembers members = members.map fun member => (member.1, member.2.interpret) := by
  induction members with
  | nil => rfl
  | cons member members ih => simp [Json.interpretMembers, ih]

/-- A tagged object stands for the node of its tag and its other members. -/
theorem Tag.interpret_wrap (tag : Tag) {members : List (String × Json)}
    (hmembers : ∀ member ∈ members, member.1 ≠ tagName) :
    (tag.wrap members).interpret =
      { Reading.nothing with node := tag.build (Json.interpretMembers members) } := by
  have hfields : ∀ field ∈ Json.interpretMembers members, field.1 ≠ tagName := by
    rw [Json.interpretMembers_eq_map]
    intro field hfield
    obtain ⟨member, hmember, rfl⟩ := List.mem_map.mp hfield
    exact hmembers member hmember
  have hnone : (Json.interpretMembers members).filter (fun field => field.1 = tagName) = [] :=
    List.filter_eq_nil_iff.mpr fun field hfield => by simpa using hfields field hfield
  have hall : (Json.interpretMembers members).filter (fun field => field.1 ≠ tagName) =
      Json.interpretMembers members :=
    List.filter_eq_self.mpr fun field hfield => by simpa using hfields field hfield
  have hnode : Fields.node? ((tagName, (Json.string tag.name).interpret) ::
      Json.interpretMembers members) = tag.build (Json.interpretMembers members) := by
    rw [Fields.node?, List.filter_cons_of_pos (by simp), hnone, List.filter_cons_of_neg (by simp),
      hall]
    change (Tag.ofName? tag.name).bind _ = _
    rw [Tag.ofName?_name]
    rfl
  rw [wrap, Json.interpret, Json.interpretMembers, hnode]

theorem mapM_node_interpret {nodes : List Node}
    (hnodes : ∀ node ∈ nodes, node.toJson.interpret = .ofNode node) :
    (Json.interpretAll (Node.toJsons nodes)).mapM Reading.node = some nodes := by
  induction nodes with
  | nil => rfl
  | cons node nodes ih =>
      have hmore := fun other hother => hnodes other (List.mem_cons_of_mem node hother)
      rw [Node.toJsons, Json.interpretAll, hnodes node List.mem_cons_self, List.mapM_cons,
        ih hmore]
      rfl

/-- The members of a payload are read as the payload, if there is one. -/
theorem interpretMembers_optionalField {payload : Option Node}
    (hpayload : ∀ node ∈ payload, node.toJson.interpret = .ofNode node) (name : String) :
    Json.interpretMembers (optionalField name (Node.toJson? payload)) =
      (payload.map fun node => (name, Reading.ofNode node)).toList := by
  cases payload with
  | none => rfl
  | some node =>
      rw [Node.toJson?, optionalField, Json.interpretMembers, hpayload node rfl]
      rfl

/-- An operator code is read as it was written. -/
theorem Fields.code_whole {fields : Fields} {name : String} {op : UInt8}
    (hlookup : fields.lookup name = some (Json.whole op.toNat).interpret) :
    fields.code name = some op := by
  rw [code, required, hlookup]
  simp [Json.interpret, op.toNat_lt]

/-- The fields of an operation, with an operand on its right or without one. -/
def operationFields (left : Node) (op : UInt8) (right : Option Node) : Fields :=
  [("l", .ofNode left), ("o", (Json.whole op.toNat).interpret)] ++
    (right.map fun node => ("r", Reading.ofNode node)).toList

theorem build_operationFields (left : Node) (op : UInt8) (right : Option Node) :
    Tag.sum.build (operationFields left op right) = some (.sum left op right) ∧
      Tag.product.build (operationFields left op right) = some (.product left op right) := by
  have hcode : (operationFields left op right).code "o" = some op := Fields.code_whole rfl
  have hright : (operationFields left op right).payload "r" = some right := by
    cases right <;> rfl
  have hsum : Tag.sum.admits (operationFields left op right) = true := by
    cases right <;> rfl
  have hproduct : Tag.product.admits (operationFields left op right) = true := by
    cases right <;> rfl
  have hleft : (operationFields left op right).required "l" = some (.ofNode left) := rfl
  constructor
  · simp [Tag.build, hsum, hleft, hcode, hright, Reading.ofNode]
  · simp [Tag.build, hproduct, hleft, hcode, hright, Reading.ofNode]

/-- A written node stands for itself. -/
theorem Node.interpret_toJson (node : Node) : node.toJson.interpret = .ofNode node := by
  have hbuild {node : Node}
      (hnode : node.tag.build (Json.interpretMembers node.members) = some node) :
      node.toJson.interpret = .ofNode node := by
    rw [toJson_eq, Tag.interpret_wrap _ fun member hmember => name_ne_tagName hmember, hnode]
    rfl
  have happend (left right : List (String × Json)) :
      Json.interpretMembers (left ++ right) =
        Json.interpretMembers left ++ Json.interpretMembers right := by
    simp [Json.interpretMembers_eq_map]
  induction node with
  | fact functor args ih =>
      apply hbuild
      simp only [members, Json.interpretMembers, Json.interpret, mapM_node_interpret ih]
      rfl
  | rule head body ihhead ihbody =>
      apply hbuild
      simp only [members, Json.interpretMembers, ihhead, ihbody]
      rfl
  | query goals ih =>
      apply hbuild
      simp only [members, Json.interpretMembers, Json.interpret, mapM_node_interpret ih]
      rfl
  | var name => exact hbuild rfl
  | atom text => exact hbuild rfl
  | str text => exact hbuild rfl
  | num value => exact hbuild rfl
  | assign target value ihtarget ihvalue =>
      apply hbuild
      simp only [members, Json.interpretMembers, ihtarget, ihvalue]
      rfl
  | sum left op right ihleft ihright =>
      apply hbuild
      rw [members, happend, interpretMembers_optionalField ihright]
      simp only [Json.interpretMembers, ihleft]
      exact (build_operationFields left op right).1
  | product left op right ihleft ihright =>
      apply hbuild
      rw [members, happend, interpretMembers_optionalField ihright]
      simp only [Json.interpretMembers, ihleft]
      exact (build_operationFields left op right).2
  | factor name number inner ihname ihnumber ihinner =>
      apply hbuild
      rw [members, happend, happend, interpretMembers_optionalField ihname,
        interpretMembers_optionalField ihnumber, interpretMembers_optionalField ihinner]
      cases name <;> cases number <;> cases inner <;> rfl

/-- The members of a written node are the fields of that node. -/
theorem Node.build_members (node : Node) :
    node.tag.build (Json.interpretMembers node.members) = some node := by
  have hnode := node.interpret_toJson
  rw [toJson_eq, Tag.interpret_wrap _ fun member hmember => name_ne_tagName hmember] at hnode
  exact congrArg Reading.node hnode

section ToNode

open Node

theorem Term.toNodes_eq_map (terms : List Term) : Term.toNodes terms = terms.map Term.toNode := by
  induction terms with
  | nil => rfl
  | cons term terms ih => simp [Term.toNodes, ih]

theorem toTerms_toNodes {terms : List Term}
    (hterms : ∀ term ∈ terms, toTerm term.toNode = .ok term) :
    toTerms (Term.toNodes terms) = .ok terms := by
  induction terms with
  | nil => rfl
  | cons term terms ih =>
      have hmore := fun other hother => hterms other (List.mem_cons_of_mem term hother)
      rw [Term.toNodes, toTerms, hterms term List.mem_cons_self, ih hmore]
      rfl

theorem toTerm_toNode (term : Term) : toTerm term.toNode = .ok term := by
  induction term with
  | fact functor args ih =>
      rw [Term.toNode, toTerm, toTerms_toNodes ih]
      rfl
  | _ => rfl

theorem toTerms_args (fact : Fact) : toTerms (Term.toNodes fact.args) = .ok fact.args :=
  toTerms_toNodes fun term _ => toTerm_toNode term

mutual

theorem toFactor_toNode (factor : Factor) : toFactor factor.toNode = .ok factor := by
  cases factor with
  | num value => rfl
  | var name => rfl
  | paren expr =>
      rw [Factor.toNode, toFactor, toExpr_toNode expr]
      rfl

theorem toProduct_toNode (product : Product) : toProduct product.toNode = .ok product := by
  obtain ⟨left, op, right⟩ := product
  cases right with
  | none =>
      rw [Product.toNode, toProduct, toFactor_toNode left, ProductOp.ofCode_code]
      rfl
  | some right =>
      rw [Product.toNode, toProduct, toFactor_toNode left, ProductOp.ofCode_code,
        toFactor_toNode right]
      rfl

theorem toExpr_toNode (expr : Expr) : toExpr expr.toNode = .ok expr := by
  obtain ⟨left, op, right⟩ := expr
  cases right with
  | none =>
      rw [Expr.toNode, toExpr, toProduct_toNode left, SumOp.ofCode_code]
      rfl
  | some right =>
      rw [Expr.toNode, toExpr, toProduct_toNode left, SumOp.ofCode_code, toProduct_toNode right]
      rfl

end

theorem toGoal_toNode (goal : Goal) : toGoal goal.toNode = .ok goal := by
  cases goal with
  | fact goal =>
      rw [Goal.toNode, Fact.toNode, toGoal, toTerms_args]
      rfl
  | assign target value =>
      rw [Goal.toNode, toGoal, toExpr_toNode]
      rfl

theorem toQuery_toNode (goals : Query) : toQuery (Query.toNode goals) = .ok goals := by
  rw [Query.toNode, toQuery]
  induction goals with
  | nil => rfl
  | cons goal goals ih =>
      rw [List.map_cons, convertAll, toGoal_toNode, ih]
      rfl

/-- The node of a statement stands for that statement. -/
theorem toStatement_toNode (statement : Statement) :
    toStatement statement.toNode = .ok statement := by
  rcases statement with (head | ⟨head, body⟩) | goals
  · change toStatement (.fact head.functor (Term.toNodes head.args)) = _
    rw [toStatement, toTerms_args]
    rfl
  · change toStatement (.rule (.fact head.functor (Term.toNodes head.args)) (Query.toNode body)) = _
    rw [toStatement, toFact, toTerms_args, toQuery_toNode]
    rfl
  · have hgoals := toQuery_toNode goals
    rw [Query.toNode] at hgoals
    rw [Statement.toNode, Query.toNode, toStatement, hgoals]
    rfl

end ToNode

mutual

/-- The numbers that are written in a term. -/
def Term.numbers : Term → List Float
  | .var _ => []
  | .atom _ => []
  | .str _ => []
  | .num value => [value]
  | .fact _ args => Term.numbersAll args

def Term.numbersAll : List Term → List Float
  | [] => []
  | term :: rest => term.numbers ++ Term.numbersAll rest

end

mutual

def Factor.numbers : Factor → List Float
  | .num value => [value]
  | .var _ => []
  | .paren expr => expr.numbers

def Product.numbers : Product → List Float
  | ⟨left, _, none⟩ => left.numbers
  | ⟨left, _, some right⟩ => left.numbers ++ right.numbers

def Expr.numbers : Expr → List Float
  | ⟨left, _, none⟩ => left.numbers
  | ⟨left, _, some right⟩ => left.numbers ++ right.numbers

end

def Goal.numbers : Goal → List Float
  | .fact goal => Term.numbersAll goal.args
  | .assign _ value => value.numbers

def Query.numbers (goals : Query) : List Float :=
  goals.flatMap Goal.numbers

def Clause.numbers : Clause → List Float
  | .fact head => Term.numbersAll head.args
  | .rule head body => Term.numbersAll head.args ++ Query.numbers body

def Statement.numbers : Statement → List Float
  | .clause entry => entry.numbers
  | .query goals => Query.numbers goals

/-- The numbers are read back from their JSON texts. -/
def ReadBack (numbers : List Float) : Prop :=
  ∀ value ∈ numbers, (Json.real value).ReadsBack

instance (numbers : List Float) : Decidable (ReadBack numbers) :=
  inferInstanceAs (Decidable (∀ value ∈ numbers, (Json.real value).ReadsBack))

theorem readBack_append {left right : List Float} :
    ReadBack (left ++ right) ↔ ReadBack left ∧ ReadBack right :=
  List.forall_mem_append

theorem readBack_flatMap {α : Type} {items : List α} {numbers : α → List Float} :
    ReadBack (items.flatMap numbers) ↔ ∀ item ∈ items, ReadBack (numbers item) := by
  simp only [ReadBack, List.forall_mem_flatMap]

theorem Term.numbersAll_eq_flatMap (terms : List Term) :
    Term.numbersAll terms = terms.flatMap Term.numbers := by
  induction terms with
  | nil => rfl
  | cons term terms ih => simp [Term.numbersAll, ih]

section Faithful

open Json

theorem Tag.faithful_wrap (tag : Tag) {members : List (String × Json)}
    (hmembers : ∀ member ∈ members, member.2.Faithful) : (tag.wrap members).Faithful := by
  apply Faithful.object
  intro member hmember
  rcases List.mem_cons.mp hmember with rfl | hmember
  · exact .string _
  · exact hmembers member hmember

theorem faithful_nodes {nodes : List Node} (hnodes : ∀ node ∈ nodes, node.toJson.Faithful) :
    (Json.array (Node.toJsons nodes)).Faithful := by
  apply Faithful.array
  intro item hitem
  rw [Node.toJsons_eq_map] at hitem
  obtain ⟨node, hnode, rfl⟩ := List.mem_map.mp hitem
  exact hnodes node hnode

theorem faithful_fact (functor : String) {args : List Term}
    (hargs : ∀ arg ∈ args, arg.toNode.toJson.Faithful) :
    (Node.fact functor (Term.toNodes args)).toJson.Faithful := by
  rw [Node.toJson, Term.toNodes_eq_map]
  apply Tag.faithful_wrap
  have harray : (Json.array (Node.toJsons (args.map Term.toNode))).Faithful :=
    faithful_nodes (List.forall_mem_map.mpr hargs)
  simp [harray, Faithful.string]

theorem Term.faithful (term : Term) (hnumbers : ReadBack term.numbers) :
    term.toNode.toJson.Faithful := by
  have hvalue (tag : Tag) {value : Json} (hvalue : value.Faithful) :
      (tag.wrap [("v", value)]).Faithful :=
    tag.faithful_wrap (by simpa using hvalue)
  induction term with
  | var name => exact hvalue .var (.string name)
  | atom text => exact hvalue .atom (.string text)
  | str text => exact hvalue .str (.string text)
  | num value => exact hvalue .num (.number (hnumbers value List.mem_cons_self))
  | fact functor args ih =>
      rw [numbers, numbersAll_eq_flatMap, readBack_flatMap] at hnumbers
      exact faithful_fact functor fun arg harg => ih arg harg (hnumbers arg harg)

theorem Fact.faithful (fact : Fact) (hnumbers : ReadBack (Term.numbersAll fact.args)) :
    fact.toNode.toJson.Faithful := by
  rw [Term.numbersAll_eq_flatMap, readBack_flatMap] at hnumbers
  exact faithful_fact fact.functor fun arg harg => arg.faithful (hnumbers arg harg)

theorem faithful_sumCode (op : Option SumOp) : (Json.whole (SumOp.code op).toNat).Faithful := by
  apply Faithful.number
  rcases op with _ | _ | _ <;> decide +kernel

theorem faithful_productCode (op : Option ProductOp) :
    (Json.whole (ProductOp.code op).toNat).Faithful := by
  apply Faithful.number
  rcases op with _ | _ | _ <;> decide +kernel

mutual

theorem Factor.faithful (factor : Factor) (hnumbers : ReadBack factor.numbers) :
    factor.toNode.toJson.Faithful := by
  have hpayload (name : String) {value : Json} (hvalue : value.Faithful) :
      (Tag.factor.wrap [(name, value)]).Faithful :=
    Tag.factor.faithful_wrap (by simpa using hvalue)
  cases factor with
  | num value => exact hpayload "n" (Term.faithful (.num value) hnumbers)
  | var name => exact hpayload "v" (Term.faithful (.var name) hnumbers)
  | paren expr => exact hpayload "e" (Expr.faithful expr hnumbers)

theorem Product.faithful (product : Product) (hnumbers : ReadBack product.numbers) :
    product.toNode.toJson.Faithful := by
  obtain ⟨left, op, right⟩ := product
  have hcode := faithful_productCode op
  cases right with
  | none =>
      have hleft := Factor.faithful left hnumbers
      apply Tag.product.faithful_wrap
      simp [hleft, hcode, Node.toJson?, optionalField]
  | some right =>
      have hleft := Factor.faithful left (readBack_append.mp hnumbers).1
      have hright := Factor.faithful right (readBack_append.mp hnumbers).2
      apply Tag.product.faithful_wrap
      simp [hleft, hcode, hright, Node.toJson?, optionalField]

theorem Expr.faithful (expr : Expr) (hnumbers : ReadBack expr.numbers) :
    expr.toNode.toJson.Faithful := by
  obtain ⟨left, op, right⟩ := expr
  have hcode := faithful_sumCode op
  cases right with
  | none =>
      have hleft := Product.faithful left hnumbers
      apply Tag.sum.faithful_wrap
      simp [hleft, hcode, Node.toJson?, optionalField]
  | some right =>
      have hleft := Product.faithful left (readBack_append.mp hnumbers).1
      have hright := Product.faithful right (readBack_append.mp hnumbers).2
      apply Tag.sum.faithful_wrap
      simp [hleft, hcode, hright, Node.toJson?, optionalField]

end

theorem Goal.faithful (goal : Goal) (hnumbers : ReadBack goal.numbers) :
    goal.toNode.toJson.Faithful := by
  cases goal with
  | fact goal => exact goal.faithful hnumbers
  | assign target value =>
      have htarget : (Node.var target).toJson.Faithful :=
        (Term.var target).faithful (List.forall_mem_nil _)
      have hvalue := value.faithful hnumbers
      apply Tag.assign.faithful_wrap
      simp [htarget, hvalue]

theorem Query.faithful (goals : Query) (hnumbers : ReadBack (Query.numbers goals)) :
    (Query.toNode goals).toJson.Faithful := by
  rw [Query.numbers, readBack_flatMap] at hnumbers
  have hgoals : (Json.array (Node.toJsons (goals.map Goal.toNode))).Faithful :=
    faithful_nodes (List.forall_mem_map.mpr fun goal hgoal => goal.faithful (hnumbers goal hgoal))
  apply Tag.query.faithful_wrap
  simpa using hgoals

/-- A statement is written faithfully if its numbers are. -/
theorem Statement.faithful (statement : Statement) (hnumbers : ReadBack statement.numbers) :
    statement.toNode.toJson.Faithful := by
  rcases statement with (head | ⟨head, body⟩) | goals
  · exact head.faithful hnumbers
  · have hhead := head.faithful (readBack_append.mp hnumbers).1
    have hbody := Query.faithful body (readBack_append.mp hnumbers).2
    apply Tag.rule.faithful_wrap
    simp [hhead, hbody]
  · exact Query.faithful goals hnumbers

end Faithful

end Horn
