/-
What arithmetic text means.  In the standard reading products bind tighter than
sums, both group to the left and parentheses override.  The parser keeps one
operator in each node and puts what it has read so far in parentheses of its
own; an expression evaluates as its reading does, whatever the operations are.
-/
import Horn.Arithmetic
import Horn.Proofs.Recognition

namespace Horn

inductive Operator
  | sum (op : SumOp)
  | product (op : ProductOp)

/-- A tree of operations. -/
inductive Formula
  | num (value : Float)
  | var (name : Var)
  | operation (op : Operator) (left right : Formula)

/-- What four operators do to numbers. -/
abbrev Operations := Operator → Float → Float → Float

def Operations.standard : Operations
  | .sum op => op.apply
  | .product op => op.apply

/-- The number a reading stands for, given the numbers of its variables. -/
def Formula.value (operations : Operations) (numbers : Var → Float) : Formula → Float
  | .num value => value
  | .var name => numbers name
  | .operation op left right =>
      operations op (left.value operations numbers) (right.value operations numbers)

/-- How tightly some tokens hold together. -/
inductive Level
  | factor
  | product
  | sum

/-- The standard reading of some tokens that stand after a number of underscores. -/
inductive Reads : Level → Nat → List Token → Formula → Prop
  | number (before : Nat) (value : Float) : Reads .factor before [.number value] (.num value)
  | negative (before : Nat) (value : Float) :
      Reads .factor before [.symbol .minus, .number value] (.num (-value))
  | var (before : Nat) (name : String) :
      Reads .factor before [.variable name] (.var (writtenVar before name))
  | parentheses {before : Nat} {tokens : List Token} {reading : Formula}
      (hinner : Reads .sum before tokens reading) :
      Reads .factor before (.symbol .leftParen :: (tokens ++ [.symbol .rightParen])) reading
  | factor {before : Nat} {tokens : List Token} {reading : Formula}
      (hfactor : Reads .factor before tokens reading) : Reads .product before tokens reading
  | multiply {before : Nat} {lefts rights : List Token} {left right : Formula} (op : ProductOp)
      (hleft : Reads .product before lefts left)
      (hright : Reads .factor (before + placeholders lefts) rights right) :
      Reads .product before (lefts ++ op.token :: rights) (.operation (.product op) left right)
  | product {before : Nat} {tokens : List Token} {reading : Formula}
      (hproduct : Reads .product before tokens reading) : Reads .sum before tokens reading
  | add {before : Nat} {lefts rights : List Token} {left right : Formula} (op : SumOp)
      (hleft : Reads .sum before lefts left)
      (hright : Reads .product (before + placeholders lefts) rights right) :
      Reads .sum before (lefts ++ op.token :: rights) (.operation (.sum op) left right)

/-- The variables of some tokens as they stand in the text. -/
def writtenVars (before : Nat) : List Token → List Var
  | [] => []
  | .variable name :: rest =>
      writtenVar before name :: writtenVars (before + placeholders [.variable name]) rest
  | _ :: rest => writtenVars before rest

mutual

/-- Evaluation with any operations in the place of the usual ones. -/
def Factor.evaluateWith (operations : Operations) (bindings : Bindings) :
    Factor → Except ArithmeticError Float
  | .num value => .ok value
  | .var name => bindings.number name
  | .paren expr => expr.evaluateWith operations bindings

def Product.evaluateWith (operations : Operations) (bindings : Bindings) :
    Product → Except ArithmeticError Float
  | ⟨left, none, _⟩ => left.evaluateWith operations bindings
  | ⟨left, some op, none⟩ => do
      let _ ← left.evaluateWith operations bindings
      .error (.noProductOperand op)
  | ⟨left, some op, some right⟩ => do
      let first ← left.evaluateWith operations bindings
      let second ← right.evaluateWith operations bindings
      .ok (operations (.product op) first second)

def Expr.evaluateWith (operations : Operations) (bindings : Bindings) :
    Expr → Except ArithmeticError Float
  | ⟨left, none, _⟩ => left.evaluateWith operations bindings
  | ⟨left, some op, none⟩ => do
      let _ ← left.evaluateWith operations bindings
      .error (.noSumOperand op)
  | ⟨left, some op, some right⟩ => do
      let first ← left.evaluateWith operations bindings
      let second ← right.evaluateWith operations bindings
      .ok (operations (.sum op) first second)

end

mutual

theorem Factor.evaluateWith_standard (bindings : Bindings) (factor : Factor) :
    factor.evaluateWith .standard bindings = factor.evaluate bindings := by
  cases factor with
  | paren expr =>
      rw [Factor.evaluateWith, Factor.evaluate]
      exact Expr.evaluateWith_standard bindings expr
  | _ => rfl

theorem Product.evaluateWith_standard (bindings : Bindings) (product : Product) :
    product.evaluateWith .standard bindings = product.evaluate bindings := by
  obtain ⟨left, _ | op, _ | right⟩ := product
  · exact Factor.evaluateWith_standard bindings left
  · exact Factor.evaluateWith_standard bindings left
  · rw [Product.evaluateWith, Product.evaluate, Factor.evaluateWith_standard bindings left]
  · rw [Product.evaluateWith, Product.evaluate, Factor.evaluateWith_standard bindings left,
      Factor.evaluateWith_standard bindings right]
    rfl

theorem Expr.evaluateWith_standard (bindings : Bindings) (expr : Expr) :
    expr.evaluateWith .standard bindings = expr.evaluate bindings := by
  obtain ⟨left, _ | op, _ | right⟩ := expr
  · exact Product.evaluateWith_standard bindings left
  · exact Product.evaluateWith_standard bindings left
  · rw [Expr.evaluateWith, Expr.evaluate, Product.evaluateWith_standard bindings left]
  · rw [Expr.evaluateWith, Expr.evaluate, Product.evaluateWith_standard bindings left,
      Product.evaluateWith_standard bindings right]
    rfl

end

/-- Evaluation of a reading, operands from left to right. -/
def Formula.evaluateWith (operations : Operations) (bindings : Bindings) :
    Formula → Except ArithmeticError Float
  | .num value => .ok value
  | .var name => bindings.number name
  | .operation op left right => do
      let first ← left.evaluateWith operations bindings
      let second ← right.evaluateWith operations bindings
      .ok (operations op first second)

def Formula.variables : Formula → List Var
  | .num _ => []
  | .var name => [name]
  | .operation _ left right => left.variables ++ right.variables

/-- With a number for each of its variables a reading has its value. -/
theorem Formula.evaluateWith_eq_ok {operations : Operations} {bindings : Bindings}
    {numbers : Var → Float} {reading : Formula}
    (hnumbers : ∀ name ∈ reading.variables, bindings.number name = .ok (numbers name)) :
    reading.evaluateWith operations bindings = .ok (reading.value operations numbers) := by
  induction reading with
  | num value => rfl
  | var name => exact hnumbers name List.mem_cons_self
  | operation op left right ihLeft ihRight =>
      rw [Formula.evaluateWith,
        ihLeft fun name hname => hnumbers name (List.mem_append_left _ hname),
        ihRight fun name hname => hnumbers name (List.mem_append_right _ hname)]
      rfl

theorem Formula.exists_evaluateWith_eq_ok (operations : Operations) {bindings : Bindings}
    {reading : Formula}
    (hnumbers : ∀ name ∈ reading.variables, ∃ value, bindings.number name = .ok value) :
    ∃ value, reading.evaluateWith operations bindings = .ok value := by
  choose! numbers hnumbers using hnumbers
  exact ⟨_, Formula.evaluateWith_eq_ok hnumbers⟩

/-- A reading without a number for some variable has the error of the first. -/
theorem Formula.evaluateWith_eq_error (operations : Operations) {bindings : Bindings}
    {reading : Formula} {passed rest : List Var} {name : Var} {error : ArithmeticError}
    (hvariables : reading.variables = passed ++ name :: rest)
    (hpassed : ∀ other ∈ passed, ∃ value, bindings.number other = .ok value)
    (herror : bindings.number name = .error error) :
    reading.evaluateWith operations bindings = .error error := by
  induction reading generalizing passed rest with
  | num value => simp [Formula.variables] at hvariables
  | var other =>
      rw [Formula.variables, List.singleton_eq_append_iff] at hvariables
      rcases hvariables with ⟨rfl, hname⟩ | ⟨_, hname⟩
      · rw [Formula.evaluateWith, ← (List.cons.inj hname).1, herror]
      · cases hname
  | operation op left right ihLeft ihRight =>
      have hright (others : List Var) (hothers : passed = left.variables ++ others)
          (hname : right.variables = others ++ name :: rest) :
          (Formula.operation op left right).evaluateWith operations bindings = .error error := by
        rw [hothers] at hpassed
        obtain ⟨value, hvalue⟩ := left.exists_evaluateWith_eq_ok operations fun other hother =>
          hpassed other (List.mem_append_left others hother)
        rw [Formula.evaluateWith, hvalue,
          ihRight hname fun other hother => hpassed other (List.mem_append_right _ hother)]
        rfl
      rw [Formula.variables, List.append_eq_append_iff] at hvariables
      rcases hvariables with ⟨others, hothers, hname⟩ | ⟨others, hothers, hname⟩
      · exact hright others hothers hname
      · cases others with
        | nil => exact hright [] (by simpa using hothers.symm) hname.symm
        | cons first others =>
            obtain ⟨rfl, _⟩ := List.cons.inj hname
            rw [Formula.evaluateWith, ihLeft hothers hpassed]
            rfl

mutual

/-- What a derivation says, each chain grouped to the left. -/
def ExprTree.reading (before : Nat) : ExprTree → Formula
  | .chain first more =>
      more.readingAfter (before + placeholders first.tokens) (first.reading before)

def SumsTree.readingAfter (before : Nat) (sum : Formula) : SumsTree → Formula
  | .done => sum
  | .next op right rest =>
      rest.readingAfter (before + placeholders right.tokens)
        (.operation (.sum op) sum (right.reading before))

def ProductTree.reading (before : Nat) : ProductTree → Formula
  | .chain first more =>
      more.readingAfter (before + placeholders first.tokens) (first.reading before)

def ProductsTree.readingAfter (before : Nat) (product : Formula) : ProductsTree → Formula
  | .done => product
  | .next op right rest =>
      rest.readingAfter (before + placeholders right.tokens)
        (.operation (.product op) product (right.reading before))

def FactorTree.reading (before : Nat) : FactorTree → Formula
  | .number value => .num value
  | .negative value => .num (-value)
  | .var name => .var (writtenVar before name)
  | .paren expr => expr.reading before

end

/-- One more operator at the end of a chain. -/
def SumsTree.snoc (op : SumOp) (right : ProductTree) : SumsTree → SumsTree
  | .done => .next op right .done
  | .next op' right' rest => .next op' right' (rest.snoc op right)

/-- One more operator at the end of a chain. -/
def ProductsTree.snoc (op : ProductOp) (right : FactorTree) : ProductsTree → ProductsTree
  | .done => .next op right .done
  | .next op' right' rest => .next op' right' (rest.snoc op right)

theorem SumsTree.tokens_snoc (op : SumOp) (right : ProductTree) (sums : SumsTree) :
    (sums.snoc op right).tokens = sums.tokens ++ op.token :: right.tokens := by
  match sums with
  | .done => simp [SumsTree.snoc, SumsTree.tokens]
  | .next op' right' rest => simp [SumsTree.snoc, SumsTree.tokens, tokens_snoc op right rest]

theorem ProductsTree.tokens_snoc (op : ProductOp) (right : FactorTree) (products : ProductsTree) :
    (products.snoc op right).tokens = products.tokens ++ op.token :: right.tokens := by
  match products with
  | .done => simp [ProductsTree.snoc, ProductsTree.tokens]
  | .next op' right' rest =>
      simp [ProductsTree.snoc, ProductsTree.tokens, tokens_snoc op right rest]

theorem SumOp.placeholders_token (op : SumOp) (rest : List Token) :
    placeholders (op.token :: rest) = placeholders rest := by
  cases op <;> rfl

theorem ProductOp.placeholders_token (op : ProductOp) (rest : List Token) :
    placeholders (op.token :: rest) = placeholders rest := by
  cases op <;> rfl

theorem SumsTree.readingAfter_snoc (before : Nat) (sum : Formula) (op : SumOp)
    (right : ProductTree) (sums : SumsTree) :
    (sums.snoc op right).readingAfter before sum =
      .operation (.sum op) (sums.readingAfter before sum)
        (right.reading (before + placeholders sums.tokens)) := by
  match sums with
  | .done => rfl
  | .next op' right' rest =>
      rw [SumsTree.snoc, SumsTree.readingAfter, readingAfter_snoc, SumsTree.readingAfter,
        SumsTree.tokens, op'.placeholders_token, placeholders_append, Nat.add_assoc]

theorem ProductsTree.readingAfter_snoc (before : Nat) (product : Formula) (op : ProductOp)
    (right : FactorTree) (products : ProductsTree) :
    (products.snoc op right).readingAfter before product =
      .operation (.product op) (products.readingAfter before product)
        (right.reading (before + placeholders products.tokens)) := by
  match products with
  | .done => rfl
  | .next op' right' rest =>
      rw [ProductsTree.snoc, ProductsTree.readingAfter, readingAfter_snoc,
        ProductsTree.readingAfter, ProductsTree.tokens, op'.placeholders_token,
        placeholders_append, Nat.add_assoc]

/-- Some tokens have a derivation that says what a reading says. -/
def Level.Derives : Level → Nat → List Token → Formula → Prop
  | .factor, before, tokens, reading =>
      ∃ tree : FactorTree, tree.tokens = tokens ∧ tree.reading before = reading
  | .product, before, tokens, reading =>
      ∃ tree : ProductTree, tree.tokens = tokens ∧ tree.reading before = reading
  | .sum, before, tokens, reading =>
      ∃ tree : ExprTree, tree.tokens = tokens ∧ tree.reading before = reading

theorem Reads.derives {level : Level} {before : Nat} {tokens : List Token} {reading : Formula}
    (hreads : Reads level before tokens reading) : level.Derives before tokens reading := by
  induction hreads with
  | number before value => exact ⟨.number value, rfl, rfl⟩
  | negative before value => exact ⟨.negative value, rfl, rfl⟩
  | var before name => exact ⟨.var name, rfl, rfl⟩
  | parentheses _ ih =>
      obtain ⟨inner, rfl, rfl⟩ := ih
      exact ⟨.paren inner, rfl, rfl⟩
  | factor _ ih =>
      obtain ⟨first, rfl, rfl⟩ := ih
      exact ⟨.chain first .done, List.append_nil _, rfl⟩
  | multiply op _ _ ihLeft ihRight =>
      obtain ⟨⟨first, more⟩, rfl, rfl⟩ := ihLeft
      obtain ⟨right, rfl, rfl⟩ := ihRight
      refine ⟨.chain first (more.snoc op right), ?_, ?_⟩
      · rw [ProductTree.tokens, ProductTree.tokens, more.tokens_snoc, List.append_assoc]
      · rw [ProductTree.reading, more.readingAfter_snoc, ProductTree.reading, ProductTree.tokens,
          placeholders_append, Nat.add_assoc]
  | product _ ih =>
      obtain ⟨first, rfl, rfl⟩ := ih
      exact ⟨.chain first .done, List.append_nil _, rfl⟩
  | add op _ _ ihLeft ihRight =>
      obtain ⟨⟨first, more⟩, rfl, rfl⟩ := ihLeft
      obtain ⟨right, rfl, rfl⟩ := ihRight
      refine ⟨.chain first (more.snoc op right), ?_, ?_⟩
      · rw [ExprTree.tokens, ExprTree.tokens, more.tokens_snoc, List.append_assoc]
      · rw [ExprTree.reading, more.readingAfter_snoc, ExprTree.reading, ExprTree.tokens,
          placeholders_append, Nat.add_assoc]

/-- There is one standard reading. -/
theorem Reads.unique {before : Nat} {tokens : List Token} {reading other : Formula}
    (hreads : Reads .sum before tokens reading) (hother : Reads .sum before tokens other) :
    other = reading := by
  obtain ⟨tree, htokens, rfl⟩ := hreads.derives
  obtain ⟨tree', htokens', rfl⟩ := hother.derives
  have hsame : tree.tokens ++ [] = tree'.tokens ++ [] := by rw [htokens, htokens']
  rw [(ExprTree.unique hsame followsQuery_nil.sum followsQuery_nil.sum).1]

theorem writtenVars_append (before : Nat) (first second : List Token) :
    writtenVars before (first ++ second) =
      writtenVars before first ++ writtenVars (before + placeholders first) second := by
  induction first generalizing before with
  | nil => rfl
  | cons token first ih =>
      match token with
      | .variable name =>
          rw [List.cons_append, writtenVars, writtenVars, ih, Nat.add_assoc,
            ← placeholders_append]
          rfl
      | .identifier _ | .number _ | .string _ | .symbol _ | .endOfText =>
          exact ih before

theorem SumOp.writtenVars_token (op : SumOp) (before : Nat) (rest : List Token) :
    writtenVars before (op.token :: rest) = writtenVars before rest := by
  cases op <;> rfl

theorem ProductOp.writtenVars_token (op : ProductOp) (before : Nat) (rest : List Token) :
    writtenVars before (op.token :: rest) = writtenVars before rest := by
  cases op <;> rfl

/-- The variables of a reading stand in the order of the text. -/
theorem Reads.variables_eq {level : Level} {before : Nat} {tokens : List Token}
    {reading : Formula} (hreads : Reads level before tokens reading) :
    reading.variables = writtenVars before tokens := by
  induction hreads with
  | parentheses _ ih =>
      rw [ih, writtenVars, writtenVars_append]
      · exact (List.append_nil _).symm
      · simp
  | factor _ ih => exact ih
  | product _ ih => exact ih
  | multiply op _ _ ihLeft ihRight =>
      rw [Formula.variables, ihLeft, ihRight, writtenVars_append, op.writtenVars_token]
  | add op _ _ ihLeft ihRight =>
      rw [Formula.variables, ihLeft, ihRight, writtenVars_append, op.writtenVars_token]
  | _ => rfl

section Evaluation

variable (operations : Operations) (bindings : Bindings)

/-- Where there is no right operand there is no operator. -/
def Product.Whole (product : Product) : Prop :=
  product.right = none → product.op = none

/-- Where there is no right operand there is no operator. -/
def Expr.Whole (expr : Expr) : Prop :=
  expr.right = none → expr.op = none

theorem Reader.whole_extendProduct (product : Product) (op : ProductOp) (right : Factor) :
    (Reader.extendProduct product op right).Whole := by
  rw [Reader.extendProduct]
  cases product.right <;> exact nofun

theorem Reader.whole_extendSum (sum : Expr) (op : SumOp) (right : Product) :
    (Reader.extendSum sum op right).Whole := by
  rw [Reader.extendSum]
  cases sum.right <;> exact nofun

/-- Whether it fills a free place or starts a new node, an operator takes what was
read so far as its left operand. -/
theorem Reader.evaluateWith_extendProduct {product : Product} (hwhole : product.Whole)
    (op : ProductOp) (right : Factor) :
    (Reader.extendProduct product op right).evaluateWith operations bindings = (do
      let first ← product.evaluateWith operations bindings
      let second ← right.evaluateWith operations bindings
      .ok (operations (.product op) first second)) := by
  obtain ⟨left, op', _ | right'⟩ := product
  · obtain rfl : op' = none := hwhole rfl
    rfl
  · rfl

theorem Reader.evaluateWith_extendSum {sum : Expr} (hwhole : sum.Whole) (op : SumOp)
    (right : Product) :
    (Reader.extendSum sum op right).evaluateWith operations bindings = (do
      let first ← sum.evaluateWith operations bindings
      let second ← right.evaluateWith operations bindings
      .ok (operations (.sum op) first second)) := by
  obtain ⟨left, op', _ | right'⟩ := sum
  · obtain rfl : op' = none := hwhole rfl
    rfl
  · rfl

mutual

theorem ExprTree.evaluateWith_expr (tree : ExprTree) (before : Nat) :
    (tree.expr before).evaluateWith operations bindings =
      (tree.reading before).evaluateWith operations bindings := by
  obtain ⟨first, more⟩ := tree
  rw [ExprTree.expr, ExprTree.reading]
  exact SumsTree.evaluateWith_extend more _ (fun _ => rfl)
    (ProductTree.evaluateWith_product first before)

/-- The part before a chain is what the chain goes on with. -/
theorem SumsTree.evaluateWith_extend (tree : SumsTree) (before : Nat) {sum : Expr}
    {reading : Formula} (hwhole : sum.Whole)
    (hsum : sum.evaluateWith operations bindings = reading.evaluateWith operations bindings) :
    (tree.extend before sum).evaluateWith operations bindings =
      (tree.readingAfter before reading).evaluateWith operations bindings := by
  cases tree with
  | done => exact hsum
  | next op right rest =>
      rw [SumsTree.extend, SumsTree.readingAfter]
      apply SumsTree.evaluateWith_extend rest _ (Reader.whole_extendSum _ _ _)
      rw [Reader.evaluateWith_extendSum operations bindings hwhole, hsum,
        ProductTree.evaluateWith_product right before]
      rfl

theorem ProductTree.evaluateWith_product (tree : ProductTree) (before : Nat) :
    (tree.product before).evaluateWith operations bindings =
      (tree.reading before).evaluateWith operations bindings := by
  obtain ⟨first, more⟩ := tree
  rw [ProductTree.product, ProductTree.reading]
  exact ProductsTree.evaluateWith_extend more _ (fun _ => rfl)
    (FactorTree.evaluateWith_factor first before)

theorem ProductsTree.evaluateWith_extend (tree : ProductsTree) (before : Nat)
    {product : Product} {reading : Formula} (hwhole : product.Whole)
    (hproduct : product.evaluateWith operations bindings =
      reading.evaluateWith operations bindings) :
    (tree.extend before product).evaluateWith operations bindings =
      (tree.readingAfter before reading).evaluateWith operations bindings := by
  cases tree with
  | done => exact hproduct
  | next op right rest =>
      rw [ProductsTree.extend, ProductsTree.readingAfter]
      apply ProductsTree.evaluateWith_extend rest _ (Reader.whole_extendProduct _ _ _)
      rw [Reader.evaluateWith_extendProduct operations bindings hwhole, hproduct,
        FactorTree.evaluateWith_factor right before]
      rfl

theorem FactorTree.evaluateWith_factor (tree : FactorTree) (before : Nat) :
    (tree.factor before).evaluateWith operations bindings =
      (tree.reading before).evaluateWith operations bindings := by
  cases tree with
  | paren inner =>
      rw [FactorTree.factor, Factor.evaluateWith, FactorTree.reading]
      exact ExprTree.evaluateWith_expr inner before
  | _ => rfl

end

end Evaluation

/-- Tokens that have a standard reading have only that one, and the parser builds
of them an expression that means it: with a number for each of their variables
it has the value of the reading, for the usual operations and for any others,
and else the error of the leftmost variable without a number. -/
theorem expression_has_standard_reading {tokens : List Token} {reading : Formula}
    {input left : Input} {fuel : Nat}
    (hreads : Reads .sum input.placeholders tokens reading)
    (hpasses : input.Passes tokens left) (hends : FollowsSum left.ahead)
    (hfuel : 4 * tokens.length ≤ fuel + 1) :
    (∀ other, Reads .sum input.placeholders tokens other → other = reading) ∧
    ∃ parsed, Reader.expr fuel input = .ok (parsed, left) ∧ ∀ bindings : Bindings,
      parsed.evaluate bindings = parsed.evaluateWith .standard bindings ∧
      ∀ operations : Operations,
        (∀ numbers : Var → Float,
          (∀ name ∈ writtenVars input.placeholders tokens,
            bindings.number name = .ok (numbers name)) →
          parsed.evaluateWith operations bindings = .ok (reading.value operations numbers)) ∧
        ∀ passed name rest error,
          writtenVars input.placeholders tokens = passed ++ name :: rest →
          (∀ other ∈ passed, ∃ value, bindings.number other = .ok value) →
          bindings.number name = .error error →
          parsed.evaluateWith operations bindings = .error error := by
  obtain ⟨tree, rfl, htree⟩ := hreads.derives
  have hvariables := hreads.variables_eq
  refine ⟨fun other => hreads.unique, tree.expr input.placeholders,
    Reader.expr_complete tree hpasses hends hfuel, fun bindings => ⟨?_, fun operations => ?_⟩⟩
  · exact ((tree.expr input.placeholders).evaluateWith_standard bindings).symm
  rw [tree.evaluateWith_expr operations bindings, htree, ← hvariables]
  constructor
  · intro numbers hnumbers
    exact Formula.evaluateWith_eq_ok hnumbers
  · intro passed name rest error hsplit hpassed herror
    exact Formula.evaluateWith_eq_error operations hsplit hpassed herror

/-- The text `7 - 2 - X * (Y + 1)` where the second variable is unbound, and where
both have numbers. -/
theorem difference_and_product_are_read :
    let tokens : List Token := [.number 7, .symbol .minus, .number 2, .symbol .minus,
      .variable "X", .symbol .star, .symbol .leftParen, .variable "Y", .symbol .plus, .number 1,
      .symbol .rightParen]
    let input : Input :=
      ⟨tokens.foldr (fun token rest => .next token .start rest) (.done .start), 0⟩
    let half := Bindings.empty.insert "X" (.num 2)
    let full := half.insert "Y" (.num 1)
    ∃ parsed left, Reader.expr 44 input = .ok (parsed, left) ∧
      parsed.evaluate half = .error (.unbound "Y") ∧ parsed.evaluate full = .ok 1 := by
  intro tokens input half full
  have hseven := (Reads.number 0 7).factor.product
  have hfive := hseven.add .subtract (Reads.number 0 2).factor
  have hinner := (Reads.var 0 "Y").factor.product.add .add (Reads.number 0 1).factor
  have hproduct := (Reads.var 0 "X").factor.multiply .multiply hinner.parentheses
  have hreads : Reads .sum 0 tokens _ := hfive.add .subtract hproduct
  obtain ⟨last, hpasses⟩ := Tokens.toList?_eq_some_iff.mp
    (show input.tokens.toList? = some tokens by rfl)
  have hinput : input.Passes tokens ⟨.done last, 0⟩ := ⟨hpasses, rfl⟩
  have hends : FollowsSum (Input.mk (.done last) 0).ahead :=
    (followsQuery_cons [] (show ∀ mark, Token.endOfText = .symbol mark → _ from nofun)).sum
  obtain ⟨_, parsed, hparsed, hvalues⟩ :=
    expression_has_standard_reading hreads hinput hends (show 4 * tokens.length ≤ 44 + 1 by decide)
  have hx : half.number "X" = .ok 2 := by rfl
  have hy : half.number "Y" = .error (.unbound "Y") := by rfl
  have hx' : full.number "X" = .ok 2 := by rfl
  have hy' : full.number "Y" = .ok 1 := by rfl
  refine ⟨parsed, _, hparsed, ?_, ?_⟩
  · obtain ⟨hstandard, hall⟩ := hvalues half
    rw [hstandard]
    apply (hall .standard).2 ["X"] "Y" [] (.unbound "Y") (by rfl) _ hy
    intro other hother
    rw [List.mem_singleton.mp hother]
    exact ⟨2, hx⟩
  · obtain ⟨hstandard, hall⟩ := hvalues full
    have hvalue := (hall .standard).1 fun name => if name = "X" then 2 else 1
    rw [hstandard, hvalue]
    · apply congrArg Except.ok
      decide +kernel
    · intro name hname
      rw [show writtenVars input.placeholders tokens = ["X", "Y"] from rfl] at hname
      rcases List.mem_cons.mp hname with rfl | hname
      · exact hx'
      · rw [List.mem_singleton.mp hname]
        exact hy'

end Horn
