/-
Underscores on their own.  The variables of a text stand in the order in which
they are written, each under its own name, and an underscore on its own becomes
a variable that differs from all others, unless one of these is written with the
very name that it is given.
-/
import Horn.Proofs.Apart
import Horn.Proofs.EntryPoints

namespace Horn

/-- The name of a variable, as it is written. -/
def Token.written? : Token → Option String
  | .variable name => some name
  | _ => none

def writtenNames (tokens : List Token) : List String :=
  tokens.filterMap Token.written?

/-- The variables for some written names, after a number of underscores. -/
def varsFor (before : Nat) : List String → List Var
  | [] => []
  | name :: rest =>
      writtenVar before name :: varsFor (before + if name = "_" then 1 else 0) rest

/-- The variables for the names in some tokens, after a number of underscores. -/
def variablesOf (before : Nat) (tokens : List Token) : List Var :=
  varsFor before (writtenNames tokens)

theorem placeholders_eq_count (tokens : List Token) :
    placeholders tokens = (writtenNames tokens).count "_" := by
  rw [writtenNames, List.count_filterMap]
  apply List.countP_congr
  intro token _
  cases token <;> simp [Token.isPlaceholder, Token.written?]

theorem varsFor_append (before : Nat) (first second : List String) :
    varsFor before (first ++ second) =
      varsFor before first ++ varsFor (before + first.count "_") second := by
  induction first generalizing before with
  | nil => rfl
  | cons name first ih =>
      have hcount : before + (if name = "_" then 1 else 0) + first.count "_" =
          before + (name :: first).count "_" := by
        simp only [List.count_cons, beq_iff_eq]
        omega
      rw [List.cons_append, varsFor, varsFor, ih, hcount, List.cons_append]

@[simp] theorem variablesOf_nil (before : Nat) : variablesOf before [] = [] := rfl

theorem variablesOf_append (before : Nat) (first second : List Token) :
    variablesOf before (first ++ second) =
      variablesOf before first ++ variablesOf (before + placeholders first) second := by
  rw [variablesOf, writtenNames, List.filterMap_append, varsFor_append, placeholders_eq_count]
  rfl

/-- A token that is no variable adds none. -/
theorem variablesOf_cons {token : Token} (htoken : token.written? = none) (before : Nat)
    (rest : List Token) : variablesOf before (token :: rest) = variablesOf before rest := by
  rw [variablesOf, writtenNames, List.filterMap_cons_none htoken]
  rfl

@[simp] theorem variablesOf_symbol (before : Nat) (mark : Symbol) (rest : List Token) :
    variablesOf before (.symbol mark :: rest) = variablesOf before rest :=
  variablesOf_cons rfl before rest

@[simp] theorem variablesOf_functor (before : Nat) (functor : Functor) (rest : List Token) :
    variablesOf before (functor.token :: rest) = variablesOf before rest := by
  cases functor <;> exact variablesOf_cons rfl before rest

@[simp] theorem variablesOf_sumOp (before : Nat) (op : SumOp) (rest : List Token) :
    variablesOf before (op.token :: rest) = variablesOf before rest := by
  cases op <;> exact variablesOf_cons rfl before rest

@[simp] theorem variablesOf_productOp (before : Nat) (op : ProductOp) (rest : List Token) :
    variablesOf before (op.token :: rest) = variablesOf before rest := by
  cases op <;> exact variablesOf_cons rfl before rest

theorem Term.occurrences_list (items : List Term) (tail : Term) :
    (Term.list items tail).occurrences = Term.occurrencesAll items ++ tail.occurrences := by
  induction items with
  | nil => rfl
  | cons item items ih =>
      rw [Term.occurrencesAll, List.append_assoc, ← ih]
      simp [Term.list, Term.occurrences, Term.occurrencesAll]

theorem occurrences_listFact {items : List Term} (hitems : items ≠ []) (tail : Term) :
    (listFact items tail).occurrences = Term.occurrencesAll items ++ tail.occurrences := by
  rw [← Term.occurrences_list, ← toTerm_listFact hitems]
  rfl

mutual

/-- A derivation mentions the variables for the names in its tokens, in order. -/
theorem FactTree.occurrences_fact (tree : FactTree) (before : Nat) :
    (tree.fact before).occurrences = variablesOf before tree.tokens := by
  cases tree with
  | word name => rfl
  | bare functor => simp [FactTree.fact, FactTree.tokens, Fact.occurrences, Term.occurrencesAll]
  | call functor args =>
      simp [FactTree.fact, FactTree.tokens, Fact.occurrences, args.occurrences_terms before,
        variablesOf_append]
  | list tree => exact tree.occurrences_fact before

theorem ListTree.occurrences_fact (tree : ListTree) (before : Nat) :
    (tree.fact before).occurrences = variablesOf before tree.tokens := by
  cases tree with
  | empty => rfl
  | closed items =>
      rw [ListTree.fact, occurrences_listFact (items.terms_ne_nil before),
        items.occurrences_terms before]
      simp [ListTree.tokens, variablesOf_append, Term.emptyList, Term.occurrences,
        Term.occurrencesAll]
  | opened items tail =>
      rw [ListTree.fact, occurrences_listFact (items.terms_ne_nil before),
        items.occurrences_terms before, tail.occurrences_term]
      simp [ListTree.tokens, variablesOf_append]

theorem ArgTree.occurrences_term (tree : ArgTree) (before : Nat) :
    (tree.term before).occurrences = variablesOf before tree.tokens := by
  cases tree with
  | var name => rfl
  | number value => rfl
  | negative value => rfl
  | string text => rfl
  | fact tree =>
      have hfact := tree.occurrences_fact before
      cases tree <;> exact hfact

theorem ArgsTree.occurrences_terms (tree : ArgsTree) (before : Nat) :
    Term.occurrencesAll (tree.terms before) = variablesOf before tree.tokens := by
  cases tree with
  | last arg =>
      rw [ArgsTree.terms, ArgsTree.tokens, Term.occurrencesAll, arg.occurrences_term before]
      simp [Term.occurrencesAll]
  | more arg rest =>
      rw [ArgsTree.terms, ArgsTree.tokens, Term.occurrencesAll, arg.occurrences_term before,
        rest.occurrences_terms]
      simp [variablesOf_append]

end

theorem Expr.occurrences_extendSum (sum : Expr) (op : SumOp) (right : Product) :
    (Reader.extendSum sum op right).occurrences = sum.occurrences ++ right.occurrences := by
  obtain ⟨left, first, second⟩ := sum
  cases second <;> rfl

theorem Product.occurrences_extendProduct (product : Product) (op : ProductOp) (right : Factor) :
    (Reader.extendProduct product op right).occurrences =
      product.occurrences ++ right.occurrences := by
  obtain ⟨left, first, second⟩ := product
  cases second <;> rfl

mutual

theorem ExprTree.occurrences_expr (tree : ExprTree) (before : Nat) :
    (tree.expr before).occurrences = variablesOf before tree.tokens := by
  obtain ⟨first, more⟩ := tree
  rw [ExprTree.expr, more.occurrences_extend, ExprTree.tokens, variablesOf_append,
    ← first.occurrences_product before]
  rfl

theorem SumsTree.occurrences_extend (tree : SumsTree) (before : Nat) (sum : Expr) :
    (tree.extend before sum).occurrences =
      sum.occurrences ++ variablesOf before tree.tokens := by
  cases tree with
  | done => exact (List.append_nil _).symm
  | next op right rest =>
      rw [SumsTree.extend, rest.occurrences_extend, Expr.occurrences_extendSum,
        right.occurrences_product before, SumsTree.tokens, variablesOf_sumOp, variablesOf_append,
        List.append_assoc]

theorem ProductTree.occurrences_product (tree : ProductTree) (before : Nat) :
    (tree.product before).occurrences = variablesOf before tree.tokens := by
  obtain ⟨first, more⟩ := tree
  rw [ProductTree.product, more.occurrences_extend, ProductTree.tokens, variablesOf_append,
    ← first.occurrences_factor before]
  rfl

theorem ProductsTree.occurrences_extend (tree : ProductsTree) (before : Nat) (product : Product) :
    (tree.extend before product).occurrences =
      product.occurrences ++ variablesOf before tree.tokens := by
  cases tree with
  | done => exact (List.append_nil _).symm
  | next op right rest =>
      rw [ProductsTree.extend, rest.occurrences_extend, Product.occurrences_extendProduct,
        right.occurrences_factor before, ProductsTree.tokens, variablesOf_productOp,
        variablesOf_append, List.append_assoc]

theorem FactorTree.occurrences_factor (tree : FactorTree) (before : Nat) :
    (tree.factor before).occurrences = variablesOf before tree.tokens := by
  cases tree with
  | number value => rfl
  | negative value => rfl
  | var name => rfl
  | paren expr =>
      rw [FactorTree.factor, FactorTree.tokens, variablesOf_symbol, variablesOf_append,
        variablesOf_symbol, variablesOf_nil, List.append_nil, ← expr.occurrences_expr before]
      rfl

end

theorem GoalTree.occurrences_goal (tree : GoalTree) (before : Nat) :
    (tree.goal before).occurrences = variablesOf before tree.tokens := by
  cases tree with
  | assign target value =>
      have htokens : (GoalTree.assign target value).tokens =
          [.variable target] ++ .identifier "is" :: value.tokens := rfl
      have hword : (Token.identifier "is").written? = none := rfl
      rw [htokens, variablesOf_append, variablesOf_cons hword, ← value.occurrences_expr]
      rfl
  | equation left right =>
      rw [GoalTree.tokens, variablesOf_append, variablesOf_symbol, ← left.occurrences_term,
        ← right.occurrences_term]
      simp [GoalTree.goal, Goal.occurrences, Fact.occurrences, Term.occurrencesAll]
  | fact tree => exact tree.occurrences_fact before

theorem GoalsTree.occurrences_goals (tree : GoalsTree) (before : Nat) :
    Query.occurrences (tree.goals before) = variablesOf before tree.tokens := by
  induction tree generalizing before with
  | last goal =>
      rw [GoalsTree.tokens, ← goal.occurrences_goal]
      exact List.flatMap_singleton Goal.occurrences _
  | more goal rest ih =>
      rw [GoalsTree.tokens, variablesOf_append, variablesOf_symbol, ← goal.occurrences_goal, ← ih]
      exact List.flatMap_cons

theorem variablesOf_optionalDot (before : Nat) (dot : Bool) :
    variablesOf before (optionalDot dot) = [] := by
  cases dot <;> rfl

theorem StatementTree.occurrences_statement (tree : StatementTree) (before : Nat) :
    (tree.statement before).occurrences = variablesOf before tree.tokens := by
  cases tree with
  | query goals dot =>
      rw [StatementTree.tokens, variablesOf_symbol, variablesOf_append, variablesOf_optionalDot,
        List.append_nil]
      exact goals.occurrences_goals before
  | fact head =>
      rw [StatementTree.tokens, variablesOf_append, variablesOf_symbol, variablesOf_nil,
        List.append_nil]
      exact head.occurrences_fact before
  | rule head body =>
      rw [StatementTree.tokens, variablesOf_append, variablesOf_symbol, variablesOf_append,
        variablesOf_symbol, variablesOf_nil, List.append_nil, ← head.occurrences_fact,
        ← body.occurrences_goals]
      rfl

theorem ProgramTree.occurrences_statements (program : ProgramTree) (before : Nat) :
    (program.statements before).flatMap Statement.occurrences =
      variablesOf before program.tokens := by
  induction program generalizing before with
  | nil => rfl
  | cons first rest ih =>
      rw [ProgramTree.tokens_cons, variablesOf_append, ← first.occurrences_statement, ← ih]
      exact List.flatMap_cons

/-- The variables in a command; a directive has none. -/
def Command.occurrences : Command → List Var
  | .statement first => first.occurrences
  | .directive _ => []

namespace Reader

/-- The value of a setting is a single token, which is no variable. -/
theorem settingValue_sound {input left : Input} {value : String}
    (hread : settingValue input = .ok (value, left)) :
    ∃ token, input.Passes [token] left ∧ token.written? = none := by
  rcases of_advance hread with ⟨_, hend⟩ | ⟨token, tokens, _, hpasses, hend⟩
  · cases hend
  · cases token with
    | identifier | string | number =>
        cases hend
        exact ⟨_, Input.passes_of_tokens hpasses rfl, rfl⟩
    | _ => cases hend

theorem directiveNamed_sound {name : String} {input left : Input} {result : Directive}
    (hread : directiveNamed name input = .ok (result, left)) :
    ∃ passed, input.Passes passed left ∧ writtenNames passed = [] := by
  rw [directiveNamed] at hread
  split at hread
  · rcases of_advance hread with ⟨_, hend⟩ | ⟨token, tokens, _, hpasses, hend⟩
    · cases hend
    · cases token with
      | string path =>
          cases hend
          exact ⟨_, Input.passes_of_tokens hpasses rfl, rfl⟩
      | _ => cases hend
  split at hread
  · rcases of_advance hread with ⟨_, hend⟩ | ⟨token, tokens, _, hpasses, hread⟩
    · cases hend
    · cases token with
      | identifier key =>
          obtain ⟨value, mid, hvalue, hend⟩ := exists_of_bind_ok hread
          obtain ⟨token, hpasses', htoken⟩ := settingValue_sound hvalue
          cases hend
          refine ⟨_, (Input.passes_of_tokens hpasses rfl).trans hpasses', ?_⟩
          exact List.filterMap_cons_none htoken
      | _ => cases hread
  split at hread
  · cases hread
    exact ⟨[], .nil input, rfl⟩
  split at hread
  · cases hread
    exact ⟨[], .nil input, rfl⟩
  · cases hread

/-- A directive is a colon and what follows it, without a variable. -/
theorem directive_sound {input left : Input} {result : Directive}
    (hread : directive input = .ok (result, left)) :
    ∃ passed, input.Passes (.symbol .colon :: passed) left ∧ writtenNames passed = [] := by
  rw [directive] at hread
  obtain ⟨mid, hcolon, hread⟩ := of_expect hread
  obtain ⟨token, mid', hcurrent, hread⟩ := exists_of_bind_ok hread
  cases hcurrent
  cases hname : mid.tokens.current with
  | identifier name =>
      rw [hname] at hread
      obtain ⟨last, hword, hread⟩ := of_advance_current hname rfl (by simp) hread
      obtain ⟨more, hpasses, hnone⟩ := directiveNamed_sound hread
      exact ⟨_, hcolon.trans (hword.trans hpasses), hnone⟩
  | _ =>
      rw [hname] at hread
      cases hread

theorem commands_sound {fuel count : Nat} {input left : Input} {result : List Command}
    (hread : commands fuel count input = .ok (result, left)) :
    ∃ passed, input.Passes passed left ∧ left.tokens.current = .endOfText ∧
      result.flatMap Command.occurrences = variablesOf input.placeholders passed := by
  induction count generalizing input left result with
  | zero => cases hread
  | succ count ih =>
      by_cases hend : input.tokens.current = .endOfText
      · rw [commands, bind_eq_of_ok (atEnd_of_eq hend)] at hread
        cases hread
        exact ⟨[], .nil input, hend, rfl⟩
      by_cases hcolon : input.tokens.current = .symbol .colon
      · rw [commands_of_colon hcolon] at hread
        obtain ⟨first, mid, hfirst, hread⟩ := exists_of_bind_ok hread
        obtain ⟨rest, mid', hrest, hlast⟩ := exists_of_bind_ok hread
        obtain ⟨passed, hpasses, hnone⟩ := directive_sound hfirst
        obtain ⟨more, hpasses', hend', hmore⟩ := ih hrest
        cases hlast
        refine ⟨.symbol .colon :: passed ++ more, hpasses.trans hpasses', hend', ?_⟩
        rw [variablesOf_append, ← hpasses.count, ← hmore, variablesOf_symbol, variablesOf, hnone,
          List.flatMap_cons]
        rfl
      · rw [commands_of_statement hend hcolon] at hread
        obtain ⟨first, mid, hfirst, hread⟩ := exists_of_bind_ok hread
        obtain ⟨rest, mid', hrest, hlast⟩ := exists_of_bind_ok hread
        obtain ⟨tree, hpasses, rfl⟩ := statement_sound hfirst
        obtain ⟨more, hpasses', hend', hmore⟩ := ih hrest
        cases hlast
        refine ⟨tree.tokens ++ more, hpasses.trans hpasses', hend', ?_⟩
        rw [variablesOf_append, ← hpasses.count, ← hmore, ← tree.occurrences_statement,
          List.flatMap_cons]
        rfl

end Reader

theorem length_varsFor (before : Nat) (names : List String) :
    (varsFor before names).length = names.length := by
  induction names generalizing before with
  | nil => rfl
  | cons name names ih => rw [varsFor, List.length_cons, List.length_cons, ih]

theorem getElem?_varsFor (before : Nat) (names : List String) (place : Nat) :
    (varsFor before names)[place]? =
      names[place]?.map (writtenVar (before + (names.take place).count "_")) := by
  induction names generalizing before place with
  | nil => rfl
  | cons name names ih =>
      cases place with
      | zero => rfl
      | succ place =>
          have hcount : before + (if name = "_" then 1 else 0) + (names.take place).count "_" =
              before + ((name :: names).take (place + 1)).count "_" := by
            simp only [List.take_succ_cons, List.count_cons, beq_iff_eq]
            omega
          rw [varsFor, List.getElem?_cons_succ, List.getElem?_cons_succ, ih, hcount]

/-- Some variables stand for written names, in the same order.  A written name
stands for itself.  An underscore on its own stands for a variable that no other
place has, but for those where its name is written: `_G` and the number of
underscores before it. -/
structure StandFor (vars : List Var) (names : List String) : Prop where
  length_eq : vars.length = names.length
  written : ∀ (place : Nat) (name : String), names[place]? = some name → name ≠ "_" →
    vars[place]? = some name
  apart : ∀ place other : Nat, place ≠ other → names[place]? = some "_" →
    (vars[place]? = vars[other]? ↔
      names[other]? = some ("_G" ++ toString ((names.take place).count "_")))

/-- Underscores at different places have different numbers. -/
theorem count_take_ne {names : List String} {place other : Nat} (hne : place ≠ other)
    (hplace : names[place]? = some "_") (hother : names[other]? = some "_") :
    (names.take place).count "_" ≠ (names.take other).count "_" := by
  have hlt {first second : Nat} (hlt : first < second) (hfirst : names[first]? = some "_") :
      (names.take first).count "_" < (names.take second).count "_" := by
    have hsplit : (names.take first).count "_" + 1 = (names.take (first + 1)).count "_" := by
      rw [List.take_add_one, hfirst, List.count_append]
      rfl
    have hmore := (List.take_sublist_take_left (l := names) (show first + 1 ≤ second from hlt))
    have hcount := hmore.count_le "_"
    omega
  rcases Nat.lt_or_gt_of_ne hne with hless | hless
  · exact Nat.ne_of_lt (hlt hless hplace)
  · exact (Nat.ne_of_lt (hlt hless hother)).symm

theorem standFor_varsFor (names : List String) : StandFor (varsFor 0 names) names where
  length_eq := length_varsFor 0 names
  written place name hname hwritten := by
    rw [getElem?_varsFor, hname, Option.map_some, writtenVar, if_neg hwritten]
  apart place other hne hplace := by
    have hunderscore : ∀ number : Nat, "_" ≠ "_G" ++ toString number := by
      intro number hsame
      have hchars := congrArg String.toList hsame
      rw [String.toList_append] at hchars
      cases hchars
    rw [getElem?_varsFor, getElem?_varsFor, hplace, Option.map_some, Nat.zero_add,
      Nat.zero_add]
    cases hother : names[other]? with
    | none => simp
    | some name =>
        rw [Option.map_some, Option.some_inj, Option.some_inj, writtenVar, writtenVar, if_pos rfl]
        by_cases hname : name = "_"
        · subst hname
          rw [if_pos rfl]
          refine iff_of_false (fun hsame => ?_) (hunderscore _)
          exact count_take_ne hne hplace hother (append_number_injective "_G" hsame)
        · rw [if_neg hname]
          exact eq_comm

/-- The names of the variables in a text, as they are written. -/
def writtenIn (text : String) : List String :=
  writtenNames ((Tokens.ofString text).toList?.getD [])

theorem standFor_of_toList? {text : String} {passed : List Token}
    (htokens : (Tokens.ofString text).toList? = some passed) :
    StandFor (variablesOf 0 passed) (writtenIn text) := by
  rw [writtenIn, htokens]
  exact standFor_varsFor _

/-- Of every text that is accepted, as a program, a query or a line of commands,
each underscore on its own becomes a variable that differs from all others,
unless one of these is written with the name that the underscore is given. -/
theorem placeholders_are_distinct (text : String) :
    (∀ statements, parseProgram text = .ok statements →
      StandFor (statements.flatMap Statement.occurrences) (writtenIn text)) ∧
    (∀ goals, parseQuery text = .ok goals →
      StandFor (Query.occurrences goals) (writtenIn text)) ∧
    ∀ commands, parseCommands text = .ok commands →
      StandFor (commands.flatMap Command.occurrences) (writtenIn text) := by
  refine ⟨fun statements hparse => ?_, fun goals hparse => ?_, fun commands hparse => ?_⟩
  · obtain ⟨program, htokens, rfl⟩ := parseProgram_sound hparse
    rw [program.occurrences_statements]
    exact standFor_of_toList? htokens
  · obtain ⟨sign, tree, dot, htokens, rfl⟩ := parseQuery_eq_ok_iff.mp hparse
    have hgoals : Query.occurrences (tree.goals 0) = variablesOf 0 (queryTokens sign tree dot) := by
      rw [queryTokens, variablesOf_append, variablesOf_append, variablesOf_optionalDot,
        List.append_nil, tree.occurrences_goals]
      cases sign <;> rfl
    rw [hgoals]
    exact standFor_of_toList? htokens
  · obtain ⟨hbroken, left, hread⟩ := exists_of_readText hparse
    obtain ⟨passed, hpasses, hend, hvariables⟩ := Reader.commands_sound hread
    rw [hvariables]
    exact standFor_of_toList? (toList?_of_passes hbroken hpasses hend)

/-- The name that an underscore is given can be written too, in the same statement. -/
theorem placeholder_is_captured :
    writtenIn "p(_, _G0)." = ["_", "_G0"] ∧
      (parseProgram "p(_, _G0).").toOption.map (List.map Statement.occurrences) =
        some [["_G0", "_G0"]] := by
  decide +kernel

end Horn
