/-
The parser reads every program that has a derivation.  What the tokens ahead are
decides which way each reader takes, so that it reads the tokens of a tree up to
their end and no further, and a text is parsed exactly if its tokens are those of
a derivation.
-/
import Horn.Proofs.Parsing

namespace Horn

namespace Reader

/-- A token that the input passes is passed by the reader, underscores on their own
being counted. -/
theorem advance_of_passes {token : Token} {input left : Input}
    (hpasses : input.Passes [token] left) :
    advance input = .ok (token, ⟨left.tokens, input.placeholders⟩) := by
  obtain ⟨tokens, count⟩ := input
  obtain ⟨tokens', count'⟩ := left
  obtain ⟨hpasses, _⟩ := hpasses
  dsimp only at hpasses ⊢
  cases hpasses with
  | next hrest hpasses =>
      cases hpasses
      rw [advance]
      cases tokens' with
      | broken error => cases hrest
      | _ => rfl

theorem advance_of_passes_same {token : Token} {input left : Input}
    (hpasses : input.Passes [token] left) (htoken : token.isPlaceholder = false) :
    advance input = .ok (token, left) := by
  have hcount : left.placeholders = input.placeholders := by
    rw [hpasses.count, placeholders, List.countP_singleton, htoken]
    rfl
  rw [advance_of_passes hpasses, ← hcount]

theorem eat_of_passes {symbol : Symbol} {input left : Input}
    (hpasses : input.Passes [.symbol symbol] left) : eat symbol input = .ok (true, left) := by
  rw [eat_of_eq hpasses.current, bind_eq_of_ok (advance_of_passes_same hpasses rfl)]
  rfl

theorem expect_of_passes {symbol : Symbol} {input left : Input}
    (hpasses : input.Passes [.symbol symbol] left) : expect symbol input = .ok ((), left) := by
  rw [expect, bind_eq_of_ok (eat_of_passes hpasses)]
  rfl

/-- A variable token becomes the variable that its derivation writes. -/
theorem placeholderOr_of_passes {name : String} {input left : Input}
    (hpasses : input.Passes [.variable name] left) :
    placeholderOr name ⟨left.tokens, input.placeholders⟩ =
      .ok (writtenVar input.placeholders name, left) := by
  have hcount := hpasses.count
  obtain ⟨tokens, count⟩ := left
  dsimp only at hcount ⊢
  rw [placeholderOr, writtenVar]
  by_cases hname : name = "_"
  · rw [if_pos hname, if_pos hname, hcount]
    simp [placeholders, Token.isPlaceholder, hname]
  · rw [if_neg hname, if_neg hname, hcount]
    simp [placeholders, Token.isPlaceholder, hname]

theorem negative_of_passes {value : Float} {input left : Input}
    (hpasses : input.Passes [.number value] left) : negative input = .ok (-value, left) := by
  rw [negative, bind_eq_of_ok (advance_of_passes_same hpasses rfl)]
  rfl

/-- A symbol that does not lie ahead is not passed. -/
theorem eat_of_ahead {symbol : Symbol} {input : Input}
    (hahead : input.ahead.head? ≠ some (.symbol symbol)) : eat symbol input = .ok (false, input) :=
  eat_of_ne fun hcurrent => hahead (congrArg some hcurrent)

/-- A functor on its own as an argument. -/
def plain : Functor → Term
  | .identifier name => .atom name
  | .string text => .str text

theorem arg_functor {functor : Functor} {input mid : Input}
    (hpasses : input.Passes [functor.token] mid) (fuel : Nat) :
    arg (fuel + 1) input = compound fuel functor.name (plain functor) mid := by
  cases functor <;> rw [arg, bind_eq_of_ok (advance_of_passes_same hpasses rfl)] <;> rfl

theorem arg_plain {functor : Functor} {input left : Input} {fuel : Nat}
    (hpasses : input.Passes [functor.token] left) (hleft : FollowsArg left.ahead)
    (hfuel : 4 ≤ fuel) : arg fuel input = .ok (plain functor, left) := by
  obtain ⟨fuel, rfl⟩ := Nat.exists_eq_add_of_le' hfuel
  rw [arg_functor hpasses, compound, bind_eq_of_ok (eat_of_ahead hleft)]
  rfl

theorem followsArgs_ahead {mark : Symbol} {more : List Token} {input left : Input}
    (hpasses : input.Passes (.symbol mark :: more) left)
    (hmark : mark ≠ .leftParen ∧ mark ≠ .comma) : FollowsArgs input.ahead := by
  rw [hpasses.ahead_eq]
  exact followsArgs_symbol hmark.1 hmark.2 []

mutual

/-- A derivation of a fact is followed by the reader of arguments, if enough fuel is left
and no parenthesis comes after it. -/
theorem fact_complete (tree : FactTree) {fuel : Nat} {input left : Input}
    (hpasses : input.Passes tree.tokens left) (hleft : FollowsArg left.ahead)
    (hfuel : 4 * tree.tokens.length ≤ fuel) :
    arg fuel input = .ok ((ArgTree.fact tree).term input.placeholders, left) := by
  cases tree with
  | word name =>
      have hfunctor : input.Passes [(Functor.identifier name).token] left := hpasses
      exact arg_plain hfunctor hleft hfuel
  | bare functor =>
      obtain ⟨fuel, rfl⟩ := Nat.exists_eq_add_of_le' (Nat.le_trans (show 4 ≤ 12 by decide) hfuel)
      obtain ⟨mid, hfunctor, hpasses⟩ := hpasses.uncons
      obtain ⟨mid', hopen, hclose⟩ := hpasses.uncons
      rw [arg_functor hfunctor, compound, bind_eq_of_ok (eat_of_passes hopen),
        if_neg (by decide), bind_eq_of_ok (eat_of_passes hclose)]
      rfl
  | call functor args =>
      simp only [FactTree.tokens, List.length_cons, List.length_append, List.length_nil] at hfuel
      obtain ⟨fuel, rfl⟩ : ∃ less, fuel = less + 4 := Nat.exists_eq_add_of_le' (by omega)
      obtain ⟨mid, hfunctor, hpasses⟩ := hpasses.uncons
      obtain ⟨mid', hopen, hpasses⟩ := hpasses.uncons
      obtain ⟨mid'', hargs, hclose⟩ := hpasses.split
      have hfirst : mid'.ahead.head? ≠ some (.symbol .rightParen) := by
        rw [hargs.ahead]
        exact (args.head_ne _).1
      have hends := followsArgs_ahead hclose (by decide)
      rw [arg_functor hfunctor, compound, bind_eq_of_ok (eat_of_passes hopen),
        if_neg (by decide), bind_eq_of_ok (eat_of_ahead hfirst), if_neg (by decide),
        bind_eq_of_ok (args_complete args hargs hends (by omega)),
        bind_eq_of_ok (expect_of_passes hclose), hopen.count_symbol, hfunctor.count_functor]
      rfl
  | list tree =>
      have hlist := list_complete tree hpasses hfuel
      cases tree <;> exact hlist

/-- The opening bracket of a list has been passed when its reader starts. -/
theorem list_complete (tree : ListTree) {fuel : Nat} {input left : Input}
    (hpasses : input.Passes tree.tokens left) (hfuel : 4 * tree.tokens.length ≤ fuel) :
    arg fuel input = .ok ((tree.fact input.placeholders).toTerm, left) := by
  have hbracket {mid : Input} (hopen : input.Passes [.symbol .leftBracket] mid) (fuel : Nat) :
      arg (fuel + 1) input = list fuel mid := by
    rw [arg, bind_eq_of_ok (advance_of_passes_same hopen rfl)]
  cases tree with
  | empty =>
      obtain ⟨fuel, rfl⟩ := Nat.exists_eq_add_of_le' (Nat.le_trans (show 4 ≤ 8 by decide) hfuel)
      obtain ⟨mid, hopen, hclose⟩ := hpasses.uncons
      rw [hbracket hopen, list, bind_eq_of_ok (eat_of_passes hclose)]
      rfl
  | closed items =>
      simp only [ListTree.tokens, List.length_cons, List.length_append, List.length_nil] at hfuel
      obtain ⟨fuel, rfl⟩ : ∃ less, fuel = less + 4 := Nat.exists_eq_add_of_le' (by omega)
      obtain ⟨mid, hopen, hpasses⟩ := hpasses.uncons
      obtain ⟨mid', hitems, hclose⟩ := hpasses.split
      have hfirst : mid.ahead.head? ≠ some (.symbol .rightBracket) := by
        rw [hitems.ahead]
        exact (items.head_ne _).2
      have hbar : mid'.ahead.head? ≠ some (.symbol .bar) := by
        rw [hclose.ahead_eq]
        simp
      have hends := followsArgs_ahead hclose (by decide)
      -- bracket, items, no bar, bracket: in the order in which the reader asks for them
      rw [hbracket hopen, list, bind_eq_of_ok (eat_of_ahead hfirst), if_neg (by decide),
        bind_eq_of_ok (args_complete items hitems hends (by omega)),
        bind_eq_of_ok (eat_of_ahead hbar)]
      simp only [Bool.false_eq_true, if_false, pure_bind]
      rw [bind_eq_of_ok (expect_of_passes hclose), ListTree.fact,
        toTerm_listFact (items.terms_ne_nil _), hopen.count_symbol]
      rfl
  | opened items tail =>
      simp only [ListTree.tokens, List.length_cons, List.length_append, List.length_nil] at hfuel
      obtain ⟨fuel, rfl⟩ : ∃ less, fuel = less + 4 := Nat.exists_eq_add_of_le' (by omega)
      obtain ⟨mid, hopen, hpasses⟩ := hpasses.uncons
      obtain ⟨mid', hitems, hpasses⟩ := hpasses.split
      obtain ⟨mid'', hbar, hpasses⟩ := hpasses.uncons
      obtain ⟨last, htail, hclose⟩ := hpasses.split
      have hfirst : mid.ahead.head? ≠ some (.symbol .rightBracket) := by
        rw [hitems.ahead]
        exact (items.head_ne _).2
      have hitemsend := followsArgs_ahead hbar (by decide)
      have htailend := followsArgs_ahead hclose (by decide)
      rw [hbracket hopen, list, bind_eq_of_ok (eat_of_ahead hfirst), if_neg (by decide),
        bind_eq_of_ok (args_complete items hitems hitemsend (by omega)),
        bind_eq_of_ok (eat_of_passes hbar)]
      simp only [if_true]
      rw [bind_eq_of_ok (arg_complete tail htail htailend.1 (by omega)),
        bind_eq_of_ok (expect_of_passes hclose), ListTree.fact,
        toTerm_listFact (items.terms_ne_nil _), hbar.count_symbol, hitems.count,
        hopen.count_symbol]
      rfl

theorem arg_complete (tree : ArgTree) {fuel : Nat} {input left : Input}
    (hpasses : input.Passes tree.tokens left) (hleft : FollowsArg left.ahead)
    (hfuel : 4 * tree.tokens.length ≤ fuel) :
    arg fuel input = .ok (tree.term input.placeholders, left) := by
  cases tree with
  | var name =>
      obtain ⟨fuel, rfl⟩ := Nat.exists_eq_add_of_le' (show 4 ≤ fuel from hfuel)
      rw [arg, bind_eq_of_ok (advance_of_passes hpasses)]
      dsimp only
      rw [bind_eq_of_ok (placeholderOr_of_passes hpasses)]
      rfl
  | number value =>
      obtain ⟨fuel, rfl⟩ := Nat.exists_eq_add_of_le' (show 4 ≤ fuel from hfuel)
      rw [arg, bind_eq_of_ok (advance_of_passes_same hpasses rfl)]
      rfl
  | negative value =>
      obtain ⟨fuel, rfl⟩ := Nat.exists_eq_add_of_le' (show 8 ≤ fuel from hfuel)
      obtain ⟨mid, hminus, hvalue⟩ := hpasses.uncons
      rw [arg, bind_eq_of_ok (advance_of_passes_same hminus rfl)]
      dsimp only
      rw [bind_eq_of_ok (negative_of_passes hvalue)]
      rfl
  | string text =>
      have hfunctor : input.Passes [(Functor.string text).token] left := hpasses
      exact arg_plain hfunctor hleft hfuel
  | fact tree => exact fact_complete tree hpasses hleft hfuel

/-- Arguments end where neither a parenthesis nor a comma follows. -/
theorem args_complete (tree : ArgsTree) {fuel : Nat} {input left : Input}
    (hpasses : input.Passes tree.tokens left) (hleft : FollowsArgs left.ahead)
    (hfuel : 4 * tree.tokens.length < fuel) :
    args fuel input = .ok (tree.terms input.placeholders, left) := by
  obtain ⟨fuel, rfl⟩ : ∃ less, fuel = less + 1 := Nat.exists_eq_add_one_of_ne_zero (by omega)
  cases tree with
  | last arg =>
      have harg := arg_complete arg hpasses hleft.1 (Nat.le_of_lt_succ hfuel)
      rw [args, bind_eq_of_ok harg, bind_eq_of_ok (eat_of_ahead hleft.2)]
      rfl
  | more arg rest =>
      simp only [ArgsTree.tokens, List.length_cons, List.length_append] at hfuel
      obtain ⟨mid, hfirst, hpasses⟩ := hpasses.split
      obtain ⟨mid', hcomma, hrest⟩ := hpasses.uncons
      have hends : FollowsArg mid.ahead := by
        rw [hcomma.ahead_eq]
        exact followsArg_symbol (by decide) []
      rw [args, bind_eq_of_ok (arg_complete arg hfirst hends (by omega)),
        bind_eq_of_ok (eat_of_passes hcomma), if_pos rfl,
        bind_eq_of_ok (args_complete rest hrest hleft (by omega)), hcomma.count_symbol,
        hfirst.count]
      rfl

end

theorem sumOp?_of_ahead {input : Input} (hahead : FollowsSum input.ahead) :
    sumOp? input.tokens.current = none := by
  rw [Option.eq_none_iff_forall_ne_some]
  intro op hop
  exact hahead.2 op (congrArg some (sumOp?_eq_some.mp hop))

theorem productOp?_of_ahead {input : Input} (hahead : FollowsProduct input.ahead) :
    productOp? input.tokens.current = none := by
  rw [Option.eq_none_iff_forall_ne_some]
  intro op hop
  exact hahead op (congrArg some (productOp?_eq_some.mp hop))

/-- What lies ahead of the operators of a chain does not continue a product. -/
theorem followsProduct_ahead {sums : SumsTree} {input left : Input}
    (hpasses : input.Passes sums.tokens left) (hleft : FollowsSum left.ahead) :
    FollowsProduct input.ahead := by
  intro op
  rw [hpasses.ahead]
  exact sums.followsProduct hleft op

theorem length_factor_pos (tree : FactorTree) : 0 < tree.tokens.length := by
  cases tree <;> simp [FactorTree.tokens]

theorem length_product_pos (tree : ProductTree) : 0 < tree.tokens.length := by
  obtain ⟨first, more⟩ := tree
  rw [ProductTree.tokens, List.length_append]
  exact Nat.add_pos_left (length_factor_pos first) _

mutual

/-- The reader of expressions groups a chain to the left as its derivation does. -/
theorem expr_complete (tree : ExprTree) {fuel : Nat} {input left : Input}
    (hpasses : input.Passes tree.tokens left) (hleft : FollowsSum left.ahead)
    (hfuel : 4 * tree.tokens.length ≤ fuel + 1) :
    expr fuel input = .ok (tree.expr input.placeholders, left) := by
  obtain ⟨first, more⟩ := tree
  have hpos := length_product_pos first
  simp only [ExprTree.tokens, List.length_append] at hfuel
  obtain ⟨fuel, rfl⟩ : ∃ less, fuel = less + 1 := Nat.exists_eq_add_one_of_ne_zero (by omega)
  obtain ⟨mid, hfirst, hmore⟩ := hpasses.split
  have hends := followsProduct_ahead hmore hleft
  rw [expr, bind_eq_of_ok (product_complete first hfirst hends (by omega)),
    moreSums_complete more hmore hleft (by omega), ExprTree.expr, hfirst.count]

theorem moreSums_complete (tree : SumsTree) {fuel : Nat} {sum : Expr} {input left : Input}
    (hpasses : input.Passes tree.tokens left) (hleft : FollowsSum left.ahead)
    (hfuel : 4 * tree.tokens.length < fuel) :
    moreSums fuel sum input = .ok (tree.extend input.placeholders sum, left) := by
  obtain ⟨fuel, rfl⟩ : ∃ less, fuel = less + 1 := Nat.exists_eq_add_one_of_ne_zero (by omega)
  have hcurrent : current input = .ok (input.tokens.current, input) := rfl
  rw [moreSums, bind_eq_of_ok hcurrent]
  cases tree with
  | done =>
      obtain rfl := hpasses.eq_of_nil
      rw [sumOp?_of_ahead hleft]
      rfl
  | next op right rest =>
      simp only [SumsTree.tokens, List.length_cons, List.length_append] at hfuel
      rw [hpasses.current, sumOp?_eq_some.mpr rfl]
      obtain ⟨mid, hsign, hpasses⟩ := hpasses.uncons
      obtain ⟨mid', hright, hrest⟩ := hpasses.split
      have hsame : op.token.isPlaceholder = false := by cases op <;> rfl
      have hcount : mid.placeholders = input.placeholders := by
        cases op <;> exact hsign.count
      have hends := followsProduct_ahead hrest hleft
      dsimp only
      rw [bind_eq_of_ok (advance_of_passes_same hsign hsame),
        bind_eq_of_ok (product_complete right hright hends (by omega)),
        moreSums_complete rest hrest hleft (by omega), SumsTree.extend, hright.count, hcount]

theorem product_complete (tree : ProductTree) {fuel : Nat} {input left : Input}
    (hpasses : input.Passes tree.tokens left) (hleft : FollowsProduct left.ahead)
    (hfuel : 4 * tree.tokens.length ≤ fuel + 2) :
    product fuel input = .ok (tree.product input.placeholders, left) := by
  obtain ⟨first, more⟩ := tree
  have hpos := length_factor_pos first
  simp only [ProductTree.tokens, List.length_append] at hfuel
  obtain ⟨fuel, rfl⟩ : ∃ less, fuel = less + 1 := Nat.exists_eq_add_one_of_ne_zero (by omega)
  obtain ⟨mid, hfirst, hmore⟩ := hpasses.split
  rw [product, bind_eq_of_ok (factor_complete first hfirst (by omega)),
    moreProducts_complete more hmore hleft (by omega), ProductTree.product, hfirst.count]

theorem moreProducts_complete (tree : ProductsTree) {fuel : Nat} {sofar : Product}
    {input left : Input} (hpasses : input.Passes tree.tokens left)
    (hleft : FollowsProduct left.ahead) (hfuel : 4 * tree.tokens.length < fuel) :
    moreProducts fuel sofar input = .ok (tree.extend input.placeholders sofar, left) := by
  obtain ⟨fuel, rfl⟩ : ∃ less, fuel = less + 1 := Nat.exists_eq_add_one_of_ne_zero (by omega)
  have hcurrent : current input = .ok (input.tokens.current, input) := rfl
  rw [moreProducts, bind_eq_of_ok hcurrent]
  cases tree with
  | done =>
      obtain rfl := hpasses.eq_of_nil
      rw [productOp?_of_ahead hleft]
      rfl
  | next op right rest =>
      simp only [ProductsTree.tokens, List.length_cons, List.length_append] at hfuel
      rw [hpasses.current, productOp?_eq_some.mpr rfl]
      obtain ⟨mid, hsign, hpasses⟩ := hpasses.uncons
      obtain ⟨mid', hright, hrest⟩ := hpasses.split
      have hsame : op.token.isPlaceholder = false := by cases op <;> rfl
      have hcount : mid.placeholders = input.placeholders := by
        cases op <;> exact hsign.count
      dsimp only
      rw [bind_eq_of_ok (advance_of_passes_same hsign hsame),
        bind_eq_of_ok (factor_complete right hright (by omega)),
        moreProducts_complete rest hrest hleft (by omega), ProductsTree.extend, hright.count,
        hcount]

theorem factor_complete (tree : FactorTree) {fuel : Nat} {input left : Input}
    (hpasses : input.Passes tree.tokens left) (hfuel : 4 * tree.tokens.length ≤ fuel + 3) :
    factor fuel input = .ok (tree.factor input.placeholders, left) := by
  have hpos := length_factor_pos tree
  obtain ⟨fuel, rfl⟩ : ∃ less, fuel = less + 1 := Nat.exists_eq_add_one_of_ne_zero (by omega)
  cases tree with
  | number value =>
      rw [factor, bind_eq_of_ok (advance_of_passes_same hpasses rfl)]
      rfl
  | negative value =>
      obtain ⟨mid, hminus, hvalue⟩ := hpasses.uncons
      rw [factor, bind_eq_of_ok (advance_of_passes_same hminus rfl)]
      dsimp only
      rw [bind_eq_of_ok (negative_of_passes hvalue)]
      rfl
  | var name =>
      rw [factor, bind_eq_of_ok (advance_of_passes hpasses)]
      dsimp only
      rw [bind_eq_of_ok (placeholderOr_of_passes hpasses)]
      rfl
  | paren inner =>
      simp only [FactorTree.tokens, List.length_cons, List.length_append] at hfuel
      obtain ⟨mid, hopen, hpasses⟩ := hpasses.uncons
      obtain ⟨mid', hinner, hclose⟩ := hpasses.split
      have hends : FollowsSum mid'.ahead := by
        rw [hclose.ahead_eq]
        exact followsSum_close []
      rw [factor, bind_eq_of_ok (advance_of_passes_same hopen rfl)]
      dsimp only
      rw [bind_eq_of_ok (expr_complete inner hinner hends (by omega)),
        bind_eq_of_ok (expect_of_passes hclose), hopen.count_symbol]
      rfl

end

theorem factOfTerm?_term (tree : FactTree) (before : Nat) :
    factOfTerm? ((ArgTree.fact tree).term before) = some (tree.fact before) := by
  cases tree <;> rfl

theorem seesIs_of_word {input : Input} (hcurrent : input.tokens.current = .identifier "is") :
    seesIs input = .ok (true, input) := by
  have hread : current input = .ok (.identifier "is", input) := by rw [current, hcurrent]
  rw [seesIs, bind_eq_of_ok hread]
  rfl

theorem seesIs_of_ne {input : Input} (hcurrent : input.tokens.current ≠ .identifier "is") :
    seesIs input = .ok (false, input) := by
  have hread : current input = .ok (input.tokens.current, input) := rfl
  rw [seesIs, bind_eq_of_ok hread]
  cases htoken : input.tokens.current with
  | identifier name =>
      have hname : name ≠ "is" := by
        rintro rfl
        exact hcurrent htoken
      simp only [hname, decide_false, pure_eq_ok]
  | _ => rfl

/-- A term before a symbol is the start of an equation or the whole goal. -/
theorem goal_eq_goalAfter {fuel : Nat} {input mid : Input} {term : Term} {mark : Symbol}
    (harg : arg fuel input = .ok (term, mid)) (hcurrent : mid.tokens.current = .symbol mark) :
    goal fuel input = goalAfter fuel term mid := by
  rw [goal, bind_eq_of_ok harg]
  cases term with
  | var target =>
      dsimp only
      rw [bind_eq_of_ok (seesIs_of_ne (by simp [hcurrent]))]
      rfl
  | _ => rfl

/-- Which of the three kinds of goal it is shows in the first tokens. -/
theorem goal_complete (tree : GoalTree) {fuel : Nat} {input left : Input}
    (hpasses : input.Passes tree.tokens left) (hleft : FollowsGoal left.ahead)
    (hfuel : 4 * tree.tokens.length ≤ fuel) :
    goal fuel input = .ok (tree.goal input.placeholders, left) := by
  rw [tree.tokens_eq] at hpasses hfuel
  obtain ⟨mid, hfirst, hmore⟩ := hpasses.split
  have hends : FollowsArg mid.ahead := by
    rw [FollowsArg, hmore.ahead]
    exact tree.followsArg hleft
  rw [List.length_append] at hfuel
  have hlength : 4 * tree.first.tokens.length ≤ fuel := by omega
  have harg := arg_complete tree.first hfirst hends hlength
  cases tree with
  | assign target value =>
      simp only [GoalTree.more, List.length_cons] at hfuel
      obtain ⟨mid', hword, hvalue⟩ := Input.Passes.uncons hmore
      have hcount : mid'.placeholders = input.placeholders + placeholders [.variable target] :=
        hword.count.trans hfirst.count
      rw [goal, bind_eq_of_ok harg]
      dsimp only [GoalTree.first, ArgTree.term]
      rw [bind_eq_of_ok (seesIs_of_word hword.current), if_pos rfl,
        bind_eq_of_ok (advance_of_passes_same hword rfl),
        bind_eq_of_ok (expr_complete value hvalue hleft.sum (by omega)), hcount]
      rfl
  | equation first second =>
      simp only [GoalTree.more, List.length_cons] at hfuel
      obtain ⟨mid', hequals, hsecond⟩ := Input.Passes.uncons hmore
      rw [goal_eq_goalAfter harg hequals.current, goalAfter,
        bind_eq_of_ok (eat_of_passes hequals), if_pos rfl,
        bind_eq_of_ok (arg_complete second hsecond hleft.arg (by omega)), hequals.count_symbol,
        hfirst.count]
      rfl
  | fact tree =>
      obtain rfl := Input.Passes.eq_of_nil hmore
      have hgoal : goal fuel input = goalAfter fuel ((ArgTree.fact tree).term input.placeholders)
          left := by
        rw [goal, bind_eq_of_ok harg]
        cases tree <;> rfl
      rw [hgoal, goalAfter, bind_eq_of_ok (eat_of_ahead hleft.equals), if_neg Bool.false_ne_true,
        factOfTerm?_term]
      rfl

theorem goals_complete (tree : GoalsTree) {fuel count : Nat} {input left : Input}
    (hpasses : input.Passes tree.tokens left) (hleft : FollowsGoals left.ahead)
    (hfuel : 4 * tree.tokens.length ≤ fuel) (hcount : tree.tokens.length < count) :
    goals fuel count input = .ok (tree.goals input.placeholders, left) := by
  induction tree generalizing count input with
  | last first =>
      obtain ⟨count, rfl⟩ : ∃ less, count = less + 1 := Nat.exists_eq_add_one_of_ne_zero (by omega)
      rw [goals, bind_eq_of_ok (goal_complete first hpasses hleft.toFollowsGoal hfuel),
        bind_eq_of_ok (eat_of_ahead hleft.comma)]
      rfl
  | more first rest ih =>
      obtain ⟨count, rfl⟩ : ∃ less, count = less + 1 := Nat.exists_eq_add_one_of_ne_zero (by omega)
      simp only [GoalsTree.tokens, List.length_cons, List.length_append] at hfuel hcount
      obtain ⟨mid, hfirst, hpasses⟩ := hpasses.split
      obtain ⟨mid', hcomma, hrest⟩ := hpasses.uncons
      have hends : FollowsGoal mid.ahead := by
        rw [hcomma.ahead_eq]
        exact followsGoal_symbol (.inl rfl) []
      rw [goals, bind_eq_of_ok (goal_complete first hfirst hends (by omega)),
        bind_eq_of_ok (eat_of_passes hcomma), if_pos rfl,
        bind_eq_of_ok (ih hrest (by omega) (by omega)), hcomma.count_symbol, hfirst.count]
      rfl

theorem head_complete (tree : FactTree) {fuel : Nat} {input left : Input}
    (hpasses : input.Passes tree.tokens left) (hleft : FollowsArg left.ahead)
    (hfuel : 4 * tree.tokens.length ≤ fuel) :
    head fuel input = .ok (tree.fact input.placeholders, left) := by
  rw [head, bind_eq_of_ok (fact_complete tree hpasses hleft hfuel), factOfTerm?_term]
  rfl

theorem followsGoals_ahead {dot : Bool} {input left : Input}
    (hpasses : input.Passes (optionalDot dot) left) (hleft : FollowsQuery left.ahead) :
    FollowsGoals input.ahead := by
  cases dot with
  | true =>
      rw [Input.Passes.ahead_eq hpasses]
      exact followsGoals_dot []
  | false =>
      obtain rfl := Input.Passes.eq_of_nil hpasses
      exact hleft.toFollowsGoals

theorem head_ne_query {tree : FactTree} {input left : Input}
    (hpasses : input.Passes tree.tokens left) : input.ahead.head? ≠ some (.symbol .query) := by
  rw [hpasses.ahead]
  generalize hstart : tree.tokens ++ left.ahead = start
  cases hstart ▸ tree.startsFact left.ahead <;> simp

/-- A query may lack its dot where nothing follows that continues it. -/
theorem statement_complete (tree : StatementTree) {fuel : Nat} {input left : Input}
    (hpasses : input.Passes tree.tokens left) (hleft : FollowsQuery left.ahead)
    (hfuel : 4 * tree.tokens.length ≤ fuel) :
    statement fuel input = .ok (tree.statement input.placeholders, left) := by
  cases tree with
  | query goals dot =>
      simp only [StatementTree.tokens, List.length_cons, List.length_append] at hfuel
      obtain ⟨mid, hquery, hpasses⟩ := hpasses.uncons
      obtain ⟨mid', hgoals, hdot⟩ := hpasses.split
      rw [statement, bind_eq_of_ok (eat_of_passes hquery), if_pos rfl,
        bind_eq_of_ok (goals_complete goals hgoals (followsGoals_ahead hdot hleft) (by omega)
          (by omega)), hquery.count_symbol]
      cases dot with
      | true =>
          rw [bind_eq_of_ok (eat_of_passes hdot)]
          rfl
      | false =>
          obtain rfl := Input.Passes.eq_of_nil hdot
          rw [bind_eq_of_ok (eat_of_ahead hleft.dot)]
          rfl
  | fact head =>
      simp only [StatementTree.tokens, List.length_append] at hfuel
      obtain ⟨mid, hhead, hdot⟩ := hpasses.split
      have hends := followsArgs_ahead hdot (by decide)
      have hneck : mid.ahead.head? ≠ some (.symbol .neck) := by
        rw [hdot.ahead_eq]
        simp
      rw [statement, bind_eq_of_ok (eat_of_ahead (head_ne_query hhead)),
        if_neg Bool.false_ne_true, bind_eq_of_ok (head_complete head hhead hends.1 (by omega)),
        bind_eq_of_ok (eat_of_ahead hneck), if_neg Bool.false_ne_true,
        bind_eq_of_ok (expect_of_passes hdot)]
      rfl
  | rule head body =>
      simp only [StatementTree.tokens, List.length_cons, List.length_append] at hfuel
      obtain ⟨mid, hhead, hpasses⟩ := hpasses.split
      obtain ⟨mid', hneck, hpasses⟩ := hpasses.uncons
      obtain ⟨mid'', hbody, hdot⟩ := hpasses.split
      have hends := followsArgs_ahead hneck (by decide)
      have hbodyends : FollowsGoals mid''.ahead := by
        rw [hdot.ahead_eq]
        exact followsGoals_dot []
      rw [statement, bind_eq_of_ok (eat_of_ahead (head_ne_query hhead)),
        if_neg Bool.false_ne_true, bind_eq_of_ok (head_complete head hhead hends.1 (by omega)),
        bind_eq_of_ok (eat_of_passes hneck), if_pos rfl,
        bind_eq_of_ok (goals_complete body hbody hbodyends (by omega) (by omega)),
        bind_eq_of_ok (expect_of_passes hdot), hneck.count_symbol, hhead.count]
      rfl

theorem statements_complete (program : ProgramTree) {fuel count : Nat} {input left : Input}
    (hpasses : input.Passes program.tokens left) (hleft : left.tokens.current = .endOfText)
    (hfuel : 4 * program.tokens.length ≤ fuel) (hcount : program.tokens.length < count) :
    statements fuel count input = .ok (program.statements input.placeholders, left) := by
  induction program generalizing count input with
  | nil =>
      obtain ⟨count, rfl⟩ : ∃ less, count = less + 1 := Nat.exists_eq_add_one_of_ne_zero (by omega)
      obtain rfl := Input.Passes.eq_of_nil hpasses
      rw [statements, bind_eq_of_ok (atEnd_of_eq hleft)]
      rfl
  | cons first rest ih =>
      obtain ⟨count, rfl⟩ : ∃ less, count = less + 1 := Nat.exists_eq_add_one_of_ne_zero (by omega)
      rw [ProgramTree.tokens_cons] at hpasses hfuel hcount
      obtain ⟨token, more, htokens, hend, hcolon⟩ := first.exists_cons []
      rw [List.append_nil] at htokens
      obtain ⟨mid, hfirst, hrest⟩ := hpasses.split
      have hfollows : FollowsQuery mid.ahead := by
        have hnone : FollowsQuery left.ahead := by
          rw [Input.ahead, hleft]
          apply followsQuery_cons
          rintro mark ⟨⟩
        exact (ProgramTree.followsQuery rest hnone).of_head? hrest.ahead
      have hcurrent : input.tokens.current = token := by
        rw [htokens] at hfirst
        exact hfirst.current
      have hpos : 0 < first.tokens.length := by
        rw [htokens]
        exact Nat.succ_pos _
      rw [List.length_append] at hfuel hcount
      rw [statements, bind_eq_of_ok (atEnd_of_ne (hcurrent ▸ hend)), if_neg Bool.false_ne_true,
        bind_eq_of_ok (sees_of_ne (hcurrent ▸ hcolon)), if_neg Bool.false_ne_true]
      dsimp only
      rw [bind_eq_of_ok (statement_complete first hfirst hfollows (by omega)),
        bind_eq_of_ok (ih hrest (by omega) (by omega)), hfirst.count]
      rfl

end Reader

/-- The tokens of a text, if it can be scanned to its end. -/
def Tokens.toList? : Tokens → Option (List Token)
  | .next token _ rest => rest.toList?.map (token :: ·)
  | .done _ => some []
  | .broken _ => none

theorem Tokens.toList?_eq_some_iff {tokens : Tokens} {passed : List Token} :
    tokens.toList? = some passed ↔ ∃ position, tokens.Passes passed (.done position) := by
  constructor
  · intro hpassed
    induction tokens generalizing passed with
    | next token position rest ih =>
        obtain ⟨more, hmore, rfl⟩ := Option.map_eq_some_iff.mp hpassed
        obtain ⟨last, hpasses⟩ := ih hmore
        have hrest : rest.isBroken = false := by
          cases rest with
          | broken error => cases hmore
          | _ => rfl
        exact ⟨last, .next hrest hpasses⟩
    | done position =>
        cases hpassed
        exact ⟨position, .nil _⟩
    | broken error => cases hpassed
  · rintro ⟨last, hpasses⟩
    generalize hdone : Tokens.done last = left at hpasses
    induction hpasses with
    | nil tokens =>
        subst hdone
        rfl
    | next hrest hpasses ih => rw [toList?, ih hdone, Option.map_some]

theorem Tokens.length_eq {tokens : Tokens} {passed : List Token}
    (hpassed : tokens.toList? = some passed) : tokens.length = passed.length := by
  induction tokens generalizing passed with
  | next token position rest ih =>
      obtain ⟨more, hmore, rfl⟩ := Option.map_eq_some_iff.mp hpassed
      rw [length, ih hmore, List.length_cons]
  | done position =>
      cases hpassed
      rfl
  | broken error => cases hpassed

theorem scanString_token_ne {text : List Char} {scan : Scan} (hscan : scanString text = some scan) :
    scan.token ≠ .endOfText := by
  unfold scanString at hscan
  dsimp only at hscan
  split at hscan
  · cases hscan
    simp
  · cases hscan

/-- The end of a text is not scanned as a token. -/
theorem scanToken_token_ne {cursor : Cursor} {c : Char} {text : List Char} {scan : Scan}
    (hscan : scanToken cursor c text = .ok scan) : scan.token ≠ .endOfText := by
  unfold scanToken at hscan
  split at hscan
  · cases hscan
    simp
  split at hscan
  · cases hscan
    simp
  split at hscan
  · cases hscan
    simp
  split at hscan
  · split at hscan
    · next found hfound =>
        cases hscan
        exact scanString_token_ne hfound
    · cases hscan
  split at hscan
  · cases hscan
    simp [scanNumber]
  split at hscan
  · cases hscan
    simp [scanWord]
  split at hscan
  · cases hscan
    simp [scanWord]
  · cases hscan

/-- No token stands for the end of the text. -/
def Tokens.Proper : Tokens → Prop
  | .next token _ rest => token ≠ .endOfText ∧ rest.Proper
  | .done _ => True
  | .broken _ => True

theorem Tokens.proper_scan (position : Position) (text : List Char) :
    (Tokens.scan position text).Proper := by
  fun_induction Tokens.scan position text with
  | case1 => trivial
  | case2 => trivial
  | case3 position text cursor c rest hrest scan hscan ih => exact ⟨scanToken_token_ne hscan, ih⟩

theorem Tokens.Passes.eq_done {tokens left : Tokens} {passed : List Token}
    (hpasses : tokens.Passes passed left) (hproper : tokens.Proper)
    (hbroken : tokens.isBroken = false) (hend : left.current = .endOfText) :
    ∃ position, left = .done position := by
  induction hpasses with
  | nil tokens =>
      cases tokens with
      | next token position rest => exact absurd hend hproper.1
      | done position => exact ⟨position, rfl⟩
      | broken error => cases hbroken
  | next hrest hpasses ih => exact ih hproper.2 hrest hend

theorem readText_of_broken {α : Type} {reader : Nat → Reader α} {text : String}
    (hbroken : (Tokens.ofString text).isBroken = true) (value : α) :
    readText reader text ≠ .ok value := by
  rw [readText]
  cases htokens : Tokens.ofString text with
  | broken error => simp
  | _ =>
      rw [htokens] at hbroken
      cases hbroken

/-- A text without a broken token is read as its tokens are. -/
theorem readText_eq_ok_iff {α : Type} {reader : Nat → Reader α} {text : String}
    (hbroken : (Tokens.ofString text).isBroken = false) {value : α} :
    readText reader text = .ok value ↔
      ∃ left, reader (4 * (Tokens.ofString text).length + 4) ⟨Tokens.ofString text, 0⟩ =
        .ok (value, left) := by
  rw [readText]
  cases htokens : Tokens.ofString text with
  | broken error =>
      rw [htokens] at hbroken
      cases hbroken
  | _ =>
      cases hread : reader _ ⟨_, 0⟩ with
      | error error => simp [hread, bind, Except.bind]
      | ok result => simp [hread, bind, Except.bind, pure, Except.pure, Prod.ext_iff]

/-- A reader of a whole text starts with its tokens. -/
theorem exists_of_readText {α : Type} {reader : Nat → Reader α} {text : String} {value : α}
    (hread : readText reader text = .ok value) :
    (Tokens.ofString text).isBroken = false ∧
      ∃ left, reader (4 * (Tokens.ofString text).length + 4) ⟨Tokens.ofString text, 0⟩ =
        .ok (value, left) := by
  have hbroken : (Tokens.ofString text).isBroken = false := by
    rw [← Bool.not_eq_true]
    exact fun hbroken => readText_of_broken hbroken value hread
  exact ⟨hbroken, (readText_eq_ok_iff hbroken).mp hread⟩

/-- What has been passed up to the end of a text is all its tokens. -/
theorem toList?_of_passes {text : String} {passed : List Token} {left : Input}
    (hbroken : (Tokens.ofString text).isBroken = false)
    (hpasses : Input.Passes ⟨Tokens.ofString text, 0⟩ passed left)
    (hend : left.tokens.current = .endOfText) :
    (Tokens.ofString text).toList? = some passed := by
  have hproper := Tokens.proper_scan Position.start text.toList
  obtain ⟨position, hdone⟩ := hpasses.tokens.eq_done hproper hbroken hend
  refine Tokens.toList?_eq_some_iff.mpr ⟨position, ?_⟩
  rw [← hdone]
  exact hpasses.tokens

theorem exists_passes_of_toList? {text : String} {passed : List Token}
    (htokens : (Tokens.ofString text).toList? = some passed) :
    (Tokens.ofString text).isBroken = false ∧
      ∃ left : Input, Input.Passes ⟨Tokens.ofString text, 0⟩ passed left ∧
        left.tokens.current = .endOfText := by
  obtain ⟨position, hpasses⟩ := Tokens.toList?_eq_some_iff.mp htokens
  constructor
  · cases hscan : Tokens.ofString text with
    | broken error =>
        rw [hscan] at htokens
        cases htokens
    | _ => rfl
  · exact ⟨⟨.done position, placeholders passed⟩, ⟨hpasses, (Nat.zero_add _).symm⟩, rfl⟩

theorem parseProgram_sound {text : String} {statements : List Statement}
    (hparse : parseProgram text = .ok statements) :
    ∃ program : ProgramTree, (Tokens.ofString text).toList? = some program.tokens ∧
      program.statements 0 = statements := by
  obtain ⟨hbroken, left, hread⟩ := exists_of_readText hparse
  obtain ⟨program, hpasses, hend, rfl⟩ := Reader.statements_sound hread
  exact ⟨program, toList?_of_passes hbroken hpasses hend, rfl⟩

theorem parseProgram_complete {text : String} {program : ProgramTree}
    (htokens : (Tokens.ofString text).toList? = some program.tokens) :
    parseProgram text = .ok (program.statements 0) := by
  obtain ⟨hbroken, left, hpasses, hend⟩ := exists_passes_of_toList? htokens
  have hlength := Tokens.length_eq htokens
  apply (readText_eq_ok_iff hbroken).mpr
  exact ⟨_, Reader.statements_complete program hpasses hend (by omega) (by omega)⟩

end Horn
