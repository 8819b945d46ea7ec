/-
Readers and derivations.  A reader that succeeds has passed the tokens of a
derivation, and gives its syntax.
-/
import Horn.Proofs.Grammar

namespace Horn

/-- Whether a fault of the text is in view. -/
def Tokens.isBroken : Tokens → Bool
  | .broken _ => true
  | _ => false

/-- Some tokens stand before the rest, and no fault comes into view while they
are passed. -/
inductive Tokens.Passes : Tokens → List Token → Tokens → Prop
  | nil (tokens : Tokens) : Passes tokens [] tokens
  | next {token : Token} {position : Position} {rest : Tokens} {passed : List Token}
      {left : Tokens} (hrest : rest.isBroken = false) (hpasses : Passes rest passed left) :
      Passes (.next token position rest) (token :: passed) left

theorem Tokens.Passes.trans {tokens mid left : Tokens} {first second : List Token}
    (hfirst : tokens.Passes first mid) (hsecond : mid.Passes second left) :
    tokens.Passes (first ++ second) left := by
  induction hfirst with
  | nil tokens => exact hsecond
  | next hrest hpasses ih => exact .next hrest (ih hsecond)

theorem Tokens.Passes.split {tokens left : Tokens} {first second : List Token}
    (hpasses : tokens.Passes (first ++ second) left) :
    ∃ mid, tokens.Passes first mid ∧ mid.Passes second left := by
  induction first generalizing tokens with
  | nil => exact ⟨tokens, .nil tokens, hpasses⟩
  | cons token first ih =>
      cases hpasses with
      | next hrest hpasses =>
          obtain ⟨mid, hfirst, hsecond⟩ := ih hpasses
          exact ⟨mid, .next hrest hfirst, hsecond⟩

theorem Tokens.Passes.eq_of_nil {tokens left : Tokens} (hpasses : tokens.Passes [] left) :
    left = tokens := by
  cases hpasses
  rfl

/-- Some tokens are passed, and the underscores among them are counted. -/
structure Input.Passes (input : Input) (passed : List Token) (left : Input) : Prop where
  tokens : input.tokens.Passes passed left.tokens
  count : left.placeholders = input.placeholders + Horn.placeholders passed

theorem placeholders_append (first second : List Token) :
    placeholders (first ++ second) = placeholders first + placeholders second :=
  List.countP_append

namespace Input

theorem Passes.nil (input : Input) : input.Passes [] input :=
  ⟨.nil input.tokens, rfl⟩

theorem Passes.trans {input mid left : Input} {first second : List Token}
    (hfirst : input.Passes first mid) (hsecond : mid.Passes second left) :
    input.Passes (first ++ second) left := by
  constructor
  · exact hfirst.tokens.trans hsecond.tokens
  · rw [hsecond.count, hfirst.count, placeholders_append, Nat.add_assoc]

theorem Passes.split {input left : Input} {first second : List Token}
    (hpasses : input.Passes (first ++ second) left) :
    ∃ mid, input.Passes first mid ∧ mid.Passes second left := by
  obtain ⟨mid, hfirst, hsecond⟩ := hpasses.tokens.split
  refine ⟨⟨mid, input.placeholders + Horn.placeholders first⟩, ⟨hfirst, rfl⟩, hsecond, ?_⟩
  rw [hpasses.count, placeholders_append, Nat.add_assoc]

theorem Passes.uncons {input left : Input} {token : Token} {more : List Token}
    (hpasses : input.Passes (token :: more) left) :
    ∃ mid, input.Passes [token] mid ∧ mid.Passes more left :=
  Passes.split hpasses

/-- A token that is no underscore on its own does not count. -/
theorem passes_of_tokens {token : Token} {input : Input} {tokens : Tokens}
    (hpasses : input.tokens.Passes [token] tokens) (htoken : token.isPlaceholder = false) :
    input.Passes [token] ⟨tokens, input.placeholders⟩ :=
  ⟨hpasses, by simp [Horn.placeholders, htoken]⟩

theorem Passes.count_symbol {symbol : Symbol} {input left : Input}
    (hpasses : input.Passes [.symbol symbol] left) : left.placeholders = input.placeholders :=
  hpasses.count

theorem Passes.count_functor {functor : Functor} {input left : Input}
    (hpasses : input.Passes [functor.token] left) : left.placeholders = input.placeholders := by
  cases functor <;> exact hpasses.count

/-- The token in view, as what lies ahead. -/
def ahead (input : Input) : List Token :=
  [input.tokens.current]

theorem Passes.current {token : Token} {more : List Token} {input left : Input}
    (hpasses : input.Passes (token :: more) left) : input.tokens.current = token := by
  obtain ⟨tokens, count⟩ := input
  obtain ⟨hpasses, _⟩ := hpasses
  dsimp only at hpasses
  cases hpasses
  rfl

theorem Passes.eq_of_nil {input left : Input} (hpasses : input.Passes [] left) : left = input := by
  obtain ⟨tokens, count⟩ := input
  obtain ⟨tokens', count'⟩ := left
  obtain ⟨hpasses, hcount⟩ := hpasses
  dsimp only at hpasses hcount
  cases hpasses
  rw [hcount]
  rfl

theorem Passes.ahead_eq {token : Token} {more : List Token} {input left : Input}
    (hpasses : input.Passes (token :: more) left) : input.ahead = [token] :=
  congrArg ([·]) hpasses.current

/-- What lies ahead is the first token that is passed, or what lies ahead after none. -/
theorem Passes.ahead {input left : Input} {passed : List Token}
    (hpasses : input.Passes passed left) :
    input.ahead.head? = (passed ++ left.ahead).head? := by
  cases passed with
  | nil => rw [hpasses.eq_of_nil, List.nil_append]
  | cons token more => exact congrArg some hpasses.current

end Input

namespace Reader

theorem pure_eq_ok {α : Type} (value : α) (input : Input) :
    (pure value : Reader α) input = .ok (value, input) := rfl

theorem bind_eq_of_ok {α β : Type} {first : Reader α} {next : α → Reader β} {input mid : Input}
    {value : α} (hfirst : first input = .ok (value, mid)) :
    (first >>= next) input = next value mid := by
  change (first input).bind (fun result => next result.1 result.2) = _
  rw [hfirst]
  rfl

theorem exists_of_bind_ok {α β : Type} {first : Reader α} {next : α → Reader β}
    {input left : Input} {result : β} (hbind : (first >>= next) input = .ok (result, left)) :
    ∃ value mid, first input = .ok (value, mid) ∧ next value mid = .ok (result, left) := by
  change (first input).bind (fun found => next found.1 found.2) = _ at hbind
  cases hfirst : first input with
  | error error =>
      rw [hfirst] at hbind
      cases hbind
  | ok found =>
      rw [hfirst] at hbind
      exact ⟨found.1, found.2, rfl, hbind⟩

/-- A token that has been passed was in view, or the text is at its end. -/
theorem of_advance {α : Type} {next : Token → Reader α} {input left : Input} {result : α}
    (hread : (advance >>= next) input = .ok (result, left)) :
    (input.tokens.current = .endOfText ∧ next .endOfText input = .ok (result, left)) ∨
      ∃ token tokens, input.tokens.current = token ∧ input.tokens.Passes [token] tokens ∧
        next token ⟨tokens, input.placeholders⟩ = .ok (result, left) := by
  obtain ⟨token, mid, hadvance, hnext⟩ := exists_of_bind_ok hread
  obtain ⟨tokens, count⟩ := input
  cases tokens with
  | next first position rest =>
      cases rest with
      | broken error => cases hadvance
      | _ =>
          cases hadvance
          exact .inr ⟨_, _, rfl, .next rfl (.nil _), hnext⟩
  | done position =>
      cases hadvance
      exact .inl ⟨rfl, hnext⟩
  | broken error => cases hadvance

theorem sees_of_eq {symbol : Symbol} {input : Input}
    (hcurrent : input.tokens.current = .symbol symbol) :
    sees symbol input = .ok (true, input) := by
  have hread : current input = .ok (.symbol symbol, input) := by rw [current, hcurrent]
  rw [sees, bind_eq_of_ok hread]
  simp only [decide_true, pure_eq_ok]

theorem sees_of_ne {symbol : Symbol} {input : Input}
    (hcurrent : input.tokens.current ≠ .symbol symbol) :
    sees symbol input = .ok (false, input) := by
  have hread : current input = .ok (input.tokens.current, input) := rfl
  rw [sees, bind_eq_of_ok hread]
  cases htoken : input.tokens.current with
  | symbol mark =>
      have hmark : mark ≠ symbol := by
        rintro rfl
        exact hcurrent htoken
      simp only [hmark, decide_false, pure_eq_ok]
  | _ => rfl

theorem eat_of_ne {symbol : Symbol} {input : Input}
    (hcurrent : input.tokens.current ≠ .symbol symbol) :
    eat symbol input = .ok (false, input) := by
  rw [eat, bind_eq_of_ok (sees_of_ne hcurrent)]
  rfl

theorem eat_of_eq {symbol : Symbol} {input : Input}
    (hcurrent : input.tokens.current = .symbol symbol) :
    eat symbol input = (advance >>= fun _ => pure true) input := by
  rw [eat, bind_eq_of_ok (sees_of_eq hcurrent)]
  rfl

/-- A symbol has been passed, or it was not in view. -/
theorem of_eat {α : Type} {symbol : Symbol} {next : Bool → Reader α} {input left : Input}
    {result : α} (hread : (eat symbol >>= next) input = .ok (result, left)) :
    next false input = .ok (result, left) ∨
      ∃ mid, input.Passes [.symbol symbol] mid ∧ next true mid = .ok (result, left) := by
  obtain ⟨eaten, mid, heat, hnext⟩ := exists_of_bind_ok hread
  by_cases hcurrent : input.tokens.current = .symbol symbol
  · rw [eat_of_eq hcurrent] at heat
    rcases of_advance heat with ⟨hend, _⟩ | ⟨token, tokens, htoken, hpasses, hend⟩
    · cases hcurrent.symm.trans hend
    · cases hend
      obtain rfl := htoken.symm.trans hcurrent
      exact .inr ⟨_, Input.passes_of_tokens hpasses rfl, hnext⟩
  · rw [eat_of_ne hcurrent] at heat
    cases heat
    exact .inl hnext

theorem of_expect {α : Type} {symbol : Symbol} {next : Unit → Reader α} {input left : Input}
    {result : α} (hread : (expect symbol >>= next) input = .ok (result, left)) :
    ∃ mid, input.Passes [.symbol symbol] mid ∧ next () mid = .ok (result, left) := by
  obtain ⟨_, mid, hexpect, hnext⟩ := exists_of_bind_ok hread
  rcases of_eat hexpect with hfail | ⟨mid', hpasses, hdone⟩
  · cases hfail
  · cases hdone
    exact ⟨_, hpasses, hnext⟩

/-- A name that has been passed becomes a variable. -/
theorem of_placeholderOr {α : Type} {name : String} {next : Var → Reader α} {input left : Input}
    {tokens : Tokens} {result : α} (hpasses : input.tokens.Passes [.variable name] tokens)
    (hread : (placeholderOr name >>= next) ⟨tokens, input.placeholders⟩ = .ok (result, left)) :
    ∃ mid, input.Passes [.variable name] mid ∧
      next (writtenVar input.placeholders name) mid = .ok (result, left) := by
  obtain ⟨var, mid, hvar, hnext⟩ := exists_of_bind_ok hread
  rw [placeholderOr] at hvar
  by_cases hname : name = "_"
  · rw [if_pos hname] at hvar
    cases hvar
    rw [writtenVar, if_pos hname]
    refine ⟨_, ⟨hpasses, ?_⟩, hnext⟩
    simp [placeholders, Token.isPlaceholder, hname]
  · rw [if_neg hname] at hvar
    cases hvar
    rw [writtenVar, if_neg hname]
    refine ⟨_, ⟨hpasses, ?_⟩, hnext⟩
    simp [placeholders, Token.isPlaceholder, hname]

/-- The number after a minus sign. -/
theorem of_negative {α : Type} {next : Float → Reader α} {input left : Input} {result : α}
    (hread : (negative >>= next) input = .ok (result, left)) :
    ∃ value mid, input.Passes [.number value] mid ∧ next (-value) mid = .ok (result, left) := by
  obtain ⟨value, mid, hnegative, hnext⟩ := exists_of_bind_ok hread
  rcases of_advance hnegative with ⟨_, hend⟩ | ⟨token, tokens, _, hpasses, hend⟩
  · cases hend
  · cases token with
    | number value =>
        cases hend
        exact ⟨value, _, Input.passes_of_tokens hpasses rfl, hnext⟩
    | _ => cases hend

mutual

theorem arg_sound {fuel : Nat} {input left : Input} {term : Term}
    (hread : arg fuel input = .ok (term, left)) :
    ∃ tree : ArgTree, input.Passes tree.tokens left ∧ term = tree.term input.placeholders := by
  cases fuel with
  | zero => cases hread
  | succ fuel =>
      rw [arg] at hread
      rcases of_advance hread with ⟨_, hend⟩ | ⟨token, tokens, _, hpasses, hnext⟩
      · cases hend
      · have hfirst := Input.passes_of_tokens hpasses
        rcases token with name | name | value | text | mark | _
        · have hfunctor : input.Passes [(Functor.identifier name).token] _ := hfirst rfl
          rcases compound_sound hfunctor hnext with ⟨rfl, rfl⟩ | ⟨tree, htree, rfl⟩
          · exact ⟨.fact (.word name), hfirst rfl, rfl⟩
          · exact ⟨.fact tree, htree, rfl⟩
        · obtain ⟨mid, hname, hend⟩ := of_placeholderOr hpasses hnext
          cases hend
          exact ⟨.var name, hname, rfl⟩
        · cases hnext
          exact ⟨.number value, hfirst rfl, rfl⟩
        · have hfunctor : input.Passes [(Functor.string text).token] _ := hfirst rfl
          rcases compound_sound hfunctor hnext with ⟨rfl, rfl⟩ | ⟨tree, htree, rfl⟩
          · exact ⟨.string text, hfirst rfl, rfl⟩
          · exact ⟨.fact tree, htree, rfl⟩
        · cases mark with
          | minus =>
              obtain ⟨value, mid, hvalue, hend⟩ := of_negative hnext
              cases hend
              exact ⟨.negative value, (hfirst rfl).trans hvalue, rfl⟩
          | leftBracket =>
              obtain ⟨tree, htree, rfl⟩ := list_sound (hfirst rfl) hnext
              exact ⟨.fact (.list tree), htree, rfl⟩
          | _ => cases hnext
        · cases hnext

/-- What follows a functor is arguments in parentheses, or nothing that belongs to it. -/
theorem compound_sound {fuel : Nat} {functor : Functor} {plain term : Term}
    {before input left : Input} (hfunctor : before.Passes [functor.token] input)
    (hread : compound fuel functor.name plain input = .ok (term, left)) :
    (left = input ∧ term = plain) ∨
      ∃ tree : FactTree, before.Passes tree.tokens left ∧
        term = (ArgTree.fact tree).term before.placeholders := by
  cases fuel with
  | zero => cases hread
  | succ fuel =>
      rw [compound] at hread
      rcases of_eat hread with hend | ⟨mid, hopen, hread⟩
      · cases hend
        exact .inl ⟨rfl, rfl⟩
      · rcases of_eat hread with hread | ⟨mid', hclose, hend⟩
        · obtain ⟨args, mid', hargs, hread⟩ := exists_of_bind_ok hread
          obtain ⟨tree, hpasses, rfl⟩ := args_sound hargs
          obtain ⟨mid'', hclose, hend⟩ := of_expect hread
          cases hend
          have hall := hfunctor.trans (hopen.trans (hpasses.trans hclose))
          refine .inr ⟨.call functor tree, hall, ?_⟩
          rw [hopen.count_symbol, hfunctor.count_functor]
          rfl
        · cases hend
          exact .inr ⟨.bare functor, hfunctor.trans (hopen.trans hclose), rfl⟩

/-- What follows an opening bracket is the rest of a list. -/
theorem list_sound {fuel : Nat} {term : Term} {before input left : Input}
    (hbracket : before.Passes [.symbol .leftBracket] input)
    (hread : list fuel input = .ok (term, left)) :
    ∃ tree : ListTree, before.Passes tree.tokens left ∧
      term = (tree.fact before.placeholders).toTerm := by
  cases fuel with
  | zero => cases hread
  | succ fuel =>
      rw [list] at hread
      rcases of_eat hread with hread | ⟨mid, hclose, hend⟩
      · obtain ⟨items, mid, hitems, hread⟩ := exists_of_bind_ok hread
        obtain ⟨tree, hpasses, rfl⟩ := args_sound hitems
        rcases of_eat hread with hread | ⟨mid', hbar, hread⟩
        · simp only [Bool.false_eq_true, if_false, pure_bind] at hread
          obtain ⟨last, hclose, hend⟩ := of_expect hread
          cases hend
          refine ⟨.closed tree, hbracket.trans (hpasses.trans hclose), ?_⟩
          rw [ListTree.fact, toTerm_listFact (tree.terms_ne_nil _), hbracket.count_symbol]
        · obtain ⟨tail, mid'', htail, hread⟩ := exists_of_bind_ok hread
          obtain ⟨tail, hpasses', rfl⟩ := arg_sound htail
          obtain ⟨last, hclose, hend⟩ := of_expect hread
          cases hend
          have hall := hbracket.trans (hpasses.trans (hbar.trans (hpasses'.trans hclose)))
          refine ⟨.opened tree tail, hall, ?_⟩
          rw [ListTree.fact, toTerm_listFact (tree.terms_ne_nil _), hbar.count_symbol,
            hpasses.count, hbracket.count_symbol]
      · cases hend
        exact ⟨.empty, hbracket.trans hclose, rfl⟩

theorem args_sound {fuel : Nat} {input left : Input} {terms : List Term}
    (hread : args fuel input = .ok (terms, left)) :
    ∃ tree : ArgsTree, input.Passes tree.tokens left ∧
      terms = tree.terms input.placeholders := by
  cases fuel with
  | zero => cases hread
  | succ fuel =>
      rw [args] at hread
      obtain ⟨first, mid, hfirst, hread⟩ := exists_of_bind_ok hread
      obtain ⟨first, hpasses, rfl⟩ := arg_sound hfirst
      rcases of_eat hread with hend | ⟨mid', hcomma, hread⟩
      · cases hend
        exact ⟨.last first, hpasses, rfl⟩
      · obtain ⟨more, mid'', hmore, hend⟩ := exists_of_bind_ok hread
        obtain ⟨more, hpasses', rfl⟩ := args_sound hmore
        cases hend
        refine ⟨.more first more, hpasses.trans (hcomma.trans hpasses'), ?_⟩
        rw [ArgsTree.terms, hcomma.count_symbol, hpasses.count]

end

theorem sumOp?_eq_some {token : Token} {op : SumOp} :
    sumOp? token = some op ↔ token = op.token := by
  constructor
  · intro hop
    unfold sumOp? at hop
    split at hop <;> cases hop <;> rfl
  · rintro rfl
    cases op <;> rfl

theorem productOp?_eq_some {token : Token} {op : ProductOp} :
    productOp? token = some op ↔ token = op.token := by
  constructor
  · intro hop
    unfold productOp? at hop
    split at hop <;> cases hop <;> rfl
  · rintro rfl
    cases op <;> rfl

/-- A token in view that is no underscore has been passed. -/
theorem of_advance_current {α : Type} {token : Token} {next : Token → Reader α}
    {input left : Input} {result : α} (hcurrent : input.tokens.current = token)
    (htoken : token.isPlaceholder = false) (hend : token ≠ .endOfText)
    (hread : (advance >>= next) input = .ok (result, left)) :
    ∃ mid, input.Passes [token] mid ∧ next token mid = .ok (result, left) := by
  rcases of_advance hread with ⟨hnone, _⟩ | ⟨found, tokens, hfound, hpasses, hnext⟩
  · exact absurd (hcurrent.symm.trans hnone) hend
  · obtain rfl : found = token := hfound.symm.trans hcurrent
    exact ⟨_, Input.passes_of_tokens hpasses htoken, hnext⟩

mutual

theorem expr_sound {fuel : Nat} {input left : Input} {value : Expr}
    (hread : expr fuel input = .ok (value, left)) :
    ∃ tree : ExprTree, input.Passes tree.tokens left ∧ value = tree.expr input.placeholders := by
  cases fuel with
  | zero => cases hread
  | succ fuel =>
      rw [expr] at hread
      obtain ⟨first, mid, hfirst, hmore⟩ := exists_of_bind_ok hread
      obtain ⟨first, hpasses, rfl⟩ := product_sound hfirst
      obtain ⟨more, hpasses', rfl⟩ := moreSums_sound hmore
      refine ⟨.chain first more, hpasses.trans hpasses', ?_⟩
      rw [ExprTree.expr, hpasses.count]

theorem moreSums_sound {fuel : Nat} {sum value : Expr} {input left : Input}
    (hread : moreSums fuel sum input = .ok (value, left)) :
    ∃ tree : SumsTree, input.Passes tree.tokens left ∧
      value = tree.extend input.placeholders sum := by
  cases fuel with
  | zero => cases hread
  | succ fuel =>
      rw [moreSums] at hread
      obtain ⟨token, mid, hcurrent, hread⟩ := exists_of_bind_ok hread
      cases hcurrent
      cases hop : sumOp? input.tokens.current with
      | none =>
          rw [hop] at hread
          cases hread
          exact ⟨.done, .nil input, rfl⟩
      | some op =>
          rw [hop] at hread
          obtain ⟨mid, hsign, hread⟩ := of_advance_current (sumOp?_eq_some.mp hop)
            (by cases op <;> rfl) (by cases op <;> simp [SumOp.token]) hread
          obtain ⟨right, mid', hright, hmore⟩ := exists_of_bind_ok hread
          obtain ⟨right, hpasses, rfl⟩ := product_sound hright
          obtain ⟨more, hpasses', rfl⟩ := moreSums_sound hmore
          refine ⟨.next op right more, hsign.trans (hpasses.trans hpasses'), ?_⟩
          have hcount : mid.placeholders = input.placeholders := by
            cases op <;> exact hsign.count
          rw [SumsTree.extend, hpasses.count, hcount]

theorem product_sound {fuel : Nat} {input left : Input} {value : Product}
    (hread : product fuel input = .ok (value, left)) :
    ∃ tree : ProductTree, input.Passes tree.tokens left ∧
      value = tree.product input.placeholders := by
  cases fuel with
  | zero => cases hread
  | succ fuel =>
      rw [product] at hread
      obtain ⟨first, mid, hfirst, hmore⟩ := exists_of_bind_ok hread
      obtain ⟨first, hpasses, rfl⟩ := factor_sound hfirst
      obtain ⟨more, hpasses', rfl⟩ := moreProducts_sound hmore
      refine ⟨.chain first more, hpasses.trans hpasses', ?_⟩
      rw [ProductTree.product, hpasses.count]

theorem moreProducts_sound {fuel : Nat} {sofar value : Product} {input left : Input}
    (hread : moreProducts fuel sofar input = .ok (value, left)) :
    ∃ tree : ProductsTree, input.Passes tree.tokens left ∧
      value = tree.extend input.placeholders sofar := by
  cases fuel with
  | zero => cases hread
  | succ fuel =>
      rw [moreProducts] at hread
      obtain ⟨token, mid, hcurrent, hread⟩ := exists_of_bind_ok hread
      cases hcurrent
      cases hop : productOp? input.tokens.current with
      | none =>
          rw [hop] at hread
          cases hread
          exact ⟨.done, .nil input, rfl⟩
      | some op =>
          rw [hop] at hread
          obtain ⟨mid, hsign, hread⟩ := of_advance_current (productOp?_eq_some.mp hop)
            (by cases op <;> rfl) (by cases op <;> simp [ProductOp.token]) hread
          obtain ⟨right, mid', hright, hmore⟩ := exists_of_bind_ok hread
          obtain ⟨right, hpasses, rfl⟩ := factor_sound hright
          obtain ⟨more, hpasses', rfl⟩ := moreProducts_sound hmore
          refine ⟨.next op right more, hsign.trans (hpasses.trans hpasses'), ?_⟩
          have hcount : mid.placeholders = input.placeholders := by
            cases op <;> exact hsign.count
          rw [ProductsTree.extend, hpasses.count, hcount]

theorem factor_sound {fuel : Nat} {input left : Input} {value : Factor}
    (hread : factor fuel input = .ok (value, left)) :
    ∃ tree : FactorTree, input.Passes tree.tokens left ∧
      value = tree.factor input.placeholders := by
  cases fuel with
  | zero => cases hread
  | succ fuel =>
      rw [factor] at hread
      rcases of_advance hread with ⟨_, hend⟩ | ⟨token, tokens, _, hpasses, hnext⟩
      · cases hend
      · have hfirst := Input.passes_of_tokens hpasses
        rcases token with name | name | value | text | mark | _
        · cases hnext
        · obtain ⟨mid, hname, hend⟩ := of_placeholderOr hpasses hnext
          cases hend
          exact ⟨.var name, hname, rfl⟩
        · cases hnext
          exact ⟨.number value, hfirst rfl, rfl⟩
        · cases hnext
        · cases mark with
          | minus =>
              obtain ⟨value, mid, hvalue, hend⟩ := of_negative hnext
              cases hend
              exact ⟨.negative value, (hfirst rfl).trans hvalue, rfl⟩
          | leftParen =>
              obtain ⟨inner, mid, hinner, hread⟩ := exists_of_bind_ok hnext
              obtain ⟨inner, hpasses', rfl⟩ := expr_sound hinner
              obtain ⟨mid', hclose, hend⟩ := of_expect hread
              cases hend
              exact ⟨.paren inner, (hfirst rfl).trans (hpasses'.trans hclose), rfl⟩
          | _ => cases hnext
        · cases hnext

end

/-- Of the arguments only facts can stand as goals and heads. -/
theorem eq_fact_of_factOfTerm? {tree : ArgTree} {before : Nat} {fact : Fact}
    (hfact : factOfTerm? (tree.term before) = some fact) :
    ∃ inner : FactTree, tree = .fact inner ∧ fact = inner.fact before := by
  cases tree with
  | fact tree =>
      refine ⟨tree, rfl, ?_⟩
      cases tree <;> cases hfact <;> rfl
  | _ => cases hfact

theorem of_seesIs {α : Type} {next : Bool → Reader α} {input left : Input} {result : α}
    (hread : (seesIs >>= next) input = .ok (result, left)) :
    next false input = .ok (result, left) ∨
      input.tokens.current = .identifier "is" ∧ next true input = .ok (result, left) := by
  obtain ⟨seen, mid, hseen, hnext⟩ := exists_of_bind_ok hread
  obtain ⟨token, mid', hcurrent, hseen⟩ := exists_of_bind_ok hseen
  cases hcurrent
  cases htoken : input.tokens.current with
  | identifier name =>
      rw [htoken] at hseen
      by_cases hname : name = "is"
      · obtain rfl := hname
        cases hseen
        exact .inr ⟨rfl, hnext⟩
      · have hfalse : decide (name = "is") = false := decide_eq_false hname
        change Except.ok (decide (name = "is"), input) = .ok (seen, mid) at hseen
        rw [hfalse] at hseen
        cases hseen
        exact .inl hnext
  | _ =>
      rw [htoken] at hseen
      cases hseen
      exact .inl hnext

theorem goalAfter_sound {fuel : Nat} {before input left : Input} {result : Goal} {tree : ArgTree}
    (htree : before.Passes tree.tokens input)
    (hread : goalAfter fuel (tree.term before.placeholders) input = .ok (result, left)) :
    ∃ goal : GoalTree, before.Passes goal.tokens left ∧ result = goal.goal before.placeholders := by
  rw [goalAfter] at hread
  rcases of_eat hread with hread | ⟨mid, hequals, hread⟩
  · rw [if_neg Bool.false_ne_true] at hread
    cases hfact : factOfTerm? (tree.term before.placeholders) with
    | none =>
        rw [hfact] at hread
        cases hread
    | some fact =>
        rw [hfact] at hread
        cases hread
        obtain ⟨inner, rfl, rfl⟩ := eq_fact_of_factOfTerm? hfact
        exact ⟨.fact inner, htree, rfl⟩
  · obtain ⟨right, mid', hright, hend⟩ := exists_of_bind_ok hread
    obtain ⟨right, hpasses, rfl⟩ := arg_sound hright
    cases hend
    refine ⟨.equation tree right, htree.trans (hequals.trans hpasses), ?_⟩
    rw [GoalTree.goal, hequals.count_symbol, htree.count]

theorem goal_sound {fuel : Nat} {input left : Input} {result : Goal}
    (hread : goal fuel input = .ok (result, left)) :
    ∃ tree : GoalTree, input.Passes tree.tokens left ∧ result = tree.goal input.placeholders := by
  rw [goal] at hread
  obtain ⟨term, mid, hfirst, hread⟩ := exists_of_bind_ok hread
  obtain ⟨tree, hpasses, rfl⟩ := arg_sound hfirst
  cases tree with
  | var name =>
      rcases of_seesIs hread with hread | ⟨his, hread⟩
      · exact goalAfter_sound hpasses hread
      · obtain ⟨mid', hword, hread⟩ := of_advance_current his rfl (by simp) hread
        obtain ⟨value, mid'', hvalue, hend⟩ := exists_of_bind_ok hread
        obtain ⟨value, hpasses', rfl⟩ := expr_sound hvalue
        cases hend
        refine ⟨.assign name value, hpasses.trans (hword.trans hpasses'), ?_⟩
        have hcount : mid'.placeholders = input.placeholders + placeholders [.variable name] :=
          hword.count.trans hpasses.count
        rw [GoalTree.goal, hcount]
  | fact tree =>
      cases tree <;> exact goalAfter_sound hpasses hread
  | _ => exact goalAfter_sound hpasses hread

theorem goals_sound {fuel count : Nat} {input left : Input} {result : Query}
    (hread : goals fuel count input = .ok (result, left)) :
    ∃ tree : GoalsTree, input.Passes tree.tokens left ∧ result = tree.goals input.placeholders := by
  induction count generalizing input left result with
  | zero => cases hread
  | succ count ih =>
      rw [goals] at hread
      obtain ⟨first, mid, hfirst, hread⟩ := exists_of_bind_ok hread
      obtain ⟨first, hpasses, rfl⟩ := goal_sound hfirst
      rcases of_eat hread with hend | ⟨mid', hcomma, hread⟩
      · cases hend
        exact ⟨.last first, hpasses, rfl⟩
      · obtain ⟨more, mid'', hmore, hend⟩ := exists_of_bind_ok hread
        obtain ⟨more, hpasses', rfl⟩ := ih hmore
        cases hend
        refine ⟨.more first more, hpasses.trans (hcomma.trans hpasses'), ?_⟩
        rw [GoalsTree.goals, hcomma.count_symbol, hpasses.count]

theorem head_sound {fuel : Nat} {input left : Input} {result : Fact}
    (hread : head fuel input = .ok (result, left)) :
    ∃ tree : FactTree, input.Passes tree.tokens left ∧ result = tree.fact input.placeholders := by
  rw [head] at hread
  obtain ⟨term, mid, hfirst, hread⟩ := exists_of_bind_ok hread
  obtain ⟨tree, hpasses, rfl⟩ := arg_sound hfirst
  cases hfact : factOfTerm? (tree.term input.placeholders) with
  | none =>
      rw [hfact] at hread
      cases hread
  | some fact =>
      rw [hfact] at hread
      cases hread
      obtain ⟨inner, rfl, rfl⟩ := eq_fact_of_factOfTerm? hfact
      exact ⟨inner, hpasses, rfl⟩

theorem statement_sound {fuel : Nat} {input left : Input} {result : Statement}
    (hread : statement fuel input = .ok (result, left)) :
    ∃ tree : StatementTree, input.Passes tree.tokens left ∧
      result = tree.statement input.placeholders := by
  rw [statement] at hread
  rcases of_eat hread with hread | ⟨mid, hquery, hread⟩
  · rw [if_neg Bool.false_ne_true] at hread
    obtain ⟨head, mid, hhead, hread⟩ := exists_of_bind_ok hread
    obtain ⟨head, hpasses, rfl⟩ := head_sound hhead
    rcases of_eat hread with hread | ⟨mid', hneck, hread⟩
    · rw [if_neg Bool.false_ne_true] at hread
      obtain ⟨last, hdot, hend⟩ := of_expect hread
      cases hend
      exact ⟨.fact head, hpasses.trans hdot, rfl⟩
    · obtain ⟨body, mid'', hbody, hread⟩ := exists_of_bind_ok hread
      obtain ⟨body, hpasses', rfl⟩ := goals_sound hbody
      obtain ⟨last, hdot, hend⟩ := of_expect hread
      cases hend
      refine ⟨.rule head body, hpasses.trans (hneck.trans (hpasses'.trans hdot)), ?_⟩
      rw [StatementTree.statement, hneck.count_symbol, hpasses.count]
  · obtain ⟨goals, mid', hgoals, hread⟩ := exists_of_bind_ok hread
    obtain ⟨goals, hpasses, rfl⟩ := goals_sound hgoals
    rcases of_eat hread with hend | ⟨last, hdot, hend⟩
    · cases hend
      refine ⟨.query goals false, hquery.trans (hpasses.trans (.nil _)), ?_⟩
      rw [StatementTree.statement, hquery.count_symbol]
    · cases hend
      refine ⟨.query goals true, hquery.trans (hpasses.trans hdot), ?_⟩
      rw [StatementTree.statement, hquery.count_symbol]

theorem atEnd_of_eq {input : Input} (hcurrent : input.tokens.current = .endOfText) :
    atEnd input = .ok (true, input) := by
  have hread : current input = .ok (.endOfText, input) := by rw [current, hcurrent]
  rw [atEnd, bind_eq_of_ok hread]
  rfl

theorem atEnd_of_ne {input : Input} (hcurrent : input.tokens.current ≠ .endOfText) :
    atEnd input = .ok (false, input) := by
  have hread : current input = .ok (input.tokens.current, input) := rfl
  rw [atEnd, bind_eq_of_ok hread]
  cases htoken : input.tokens.current with
  | endOfText => exact absurd htoken hcurrent
  | _ => rfl

/-- Whole programs are read up to the end of their text. -/
theorem statements_sound {fuel count : Nat} {input left : Input} {result : List Statement}
    (hread : statements fuel count input = .ok (result, left)) :
    ∃ program : ProgramTree, input.Passes program.tokens left ∧
      left.tokens.current = .endOfText ∧ result = program.statements input.placeholders := by
  induction count generalizing input left result with
  | zero => cases hread
  | succ count ih =>
      rw [statements] at hread
      by_cases hend : input.tokens.current = .endOfText
      · rw [bind_eq_of_ok (atEnd_of_eq hend)] at hread
        cases hread
        exact ⟨[], .nil input, hend, rfl⟩
      · rw [bind_eq_of_ok (atEnd_of_ne hend), if_neg Bool.false_ne_true] at hread
        by_cases hcolon : input.tokens.current = .symbol .colon
        · rw [bind_eq_of_ok (sees_of_eq hcolon)] at hread
          cases hread
        · rw [bind_eq_of_ok (sees_of_ne hcolon), if_neg Bool.false_ne_true] at hread
          obtain ⟨first, mid, hfirst, hread⟩ := exists_of_bind_ok hread
          obtain ⟨first, hpasses, rfl⟩ := statement_sound hfirst
          obtain ⟨more, mid', hmore, hlast⟩ := exists_of_bind_ok hread
          obtain ⟨more, hpasses', hend', rfl⟩ := ih hmore
          cases hlast
          refine ⟨first :: more, hpasses.trans hpasses', hend', ?_⟩
          rw [ProgramTree.statements, hpasses.count]

end Reader

end Horn
