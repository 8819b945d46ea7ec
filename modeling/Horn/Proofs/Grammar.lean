/-
The grammar of programs.  A derivation is a tree of its own with the tokens it
derives and the syntax it stands for, and no two derivations have the same
tokens.

    program   := statement*
    statement := '?-' goals ['.'] | fact ('.' | ':-' goals '.')
    goals     := goal (',' goal)*
    goal      := VAR 'is' expr | arg '=' arg | fact
    fact      := IDENT | (IDENT | STRING) '(' [arg (',' arg)*] ')' | list
    arg       := VAR | NUMBER | '-' NUMBER | STRING | fact
    list      := '[' ']' | '[' arg (',' arg)* ['|' arg] ']'
    expr      := mult (('+' | '-') mult)*
    mult      := factor (('*' | '/') factor)*
    factor    := NUMBER | '-' NUMBER | VAR | '(' expr ')'
-/
import Mathlib.Tactic.Common
import Horn.Source.Parser

namespace Horn

/-- What can stand before arguments in parentheses. -/
inductive Functor
  | identifier (name : String)
  | string (text : String)

mutual

inductive FactTree
  | word (name : String)
  | bare (functor : Functor)
  | call (functor : Functor) (args : ArgsTree)
  | list (tree : ListTree)

inductive ListTree
  | empty
  | closed (items : ArgsTree)
  | opened (items : ArgsTree) (tail : ArgTree)

inductive ArgTree
  | var (name : String)
  | number (value : Float)
  | negative (value : Float)
  | string (text : String)
  | fact (tree : FactTree)

/-- One or more arguments. -/
inductive ArgsTree
  | last (arg : ArgTree)
  | more (arg : ArgTree) (rest : ArgsTree)

end

mutual

inductive ExprTree
  | chain (first : ProductTree) (more : SumsTree)

/-- The operators of a chain, each with its right operand. -/
inductive SumsTree
  | done
  | next (op : SumOp) (right : ProductTree) (rest : SumsTree)

inductive ProductTree
  | chain (first : FactorTree) (more : ProductsTree)

/-- The operators of a chain, each with its right operand. -/
inductive ProductsTree
  | done
  | next (op : ProductOp) (right : FactorTree) (rest : ProductsTree)

inductive FactorTree
  | number (value : Float)
  | negative (value : Float)
  | var (name : String)
  | paren (expr : ExprTree)

end

inductive GoalTree
  | assign (target : String) (value : ExprTree)
  | equation (left right : ArgTree)
  | fact (tree : FactTree)

/-- One or more goals. -/
inductive GoalsTree
  | last (goal : GoalTree)
  | more (goal : GoalTree) (rest : GoalsTree)

inductive StatementTree
  | query (goals : GoalsTree) (dot : Bool)
  | fact (head : FactTree)
  | rule (head : FactTree) (body : GoalsTree)

abbrev ProgramTree := List StatementTree

def Functor.token : Functor → Token
  | .identifier name => .identifier name
  | .string text => .string text

def SumOp.token : SumOp → Token
  | .add => .symbol .plus
  | .subtract => .symbol .minus

def ProductOp.token : ProductOp → Token
  | .multiply => .symbol .star
  | .divide => .symbol .slash

mutual

def FactTree.tokens : FactTree → List Token
  | .word name => [.identifier name]
  | .bare functor => [functor.token, .symbol .leftParen, .symbol .rightParen]
  | .call functor args =>
      functor.token :: .symbol .leftParen :: (args.tokens ++ [.symbol .rightParen])
  | .list tree => tree.tokens

def ListTree.tokens : ListTree → List Token
  | .empty => [.symbol .leftBracket, .symbol .rightBracket]
  | .closed items => .symbol .leftBracket :: (items.tokens ++ [.symbol .rightBracket])
  | .opened items tail =>
      .symbol .leftBracket ::
        (items.tokens ++ .symbol .bar :: (tail.tokens ++ [.symbol .rightBracket]))

def ArgTree.tokens : ArgTree → List Token
  | .var name => [.variable name]
  | .number value => [.number value]
  | .negative value => [.symbol .minus, .number value]
  | .string text => [.string text]
  | .fact tree => tree.tokens

def ArgsTree.tokens : ArgsTree → List Token
  | .last arg => arg.tokens
  | .more arg rest => arg.tokens ++ .symbol .comma :: rest.tokens

end

mutual

def ExprTree.tokens : ExprTree → List Token
  | .chain first more => first.tokens ++ more.tokens

def SumsTree.tokens : SumsTree → List Token
  | .done => []
  | .next op right rest => op.token :: (right.tokens ++ rest.tokens)

def ProductTree.tokens : ProductTree → List Token
  | .chain first more => first.tokens ++ more.tokens

def ProductsTree.tokens : ProductsTree → List Token
  | .done => []
  | .next op right rest => op.token :: (right.tokens ++ rest.tokens)

def FactorTree.tokens : FactorTree → List Token
  | .number value => [.number value]
  | .negative value => [.symbol .minus, .number value]
  | .var name => [.variable name]
  | .paren expr => .symbol .leftParen :: (expr.tokens ++ [.symbol .rightParen])

end

def GoalTree.tokens : GoalTree → List Token
  | .assign target value => .variable target :: .identifier "is" :: value.tokens
  | .equation left right => left.tokens ++ .symbol .equals :: right.tokens
  | .fact tree => tree.tokens

def GoalsTree.tokens : GoalsTree → List Token
  | .last goal => goal.tokens
  | .more goal rest => goal.tokens ++ .symbol .comma :: rest.tokens

/-- A dot that may be missing. -/
def optionalDot (dot : Bool) : List Token :=
  if dot then [.symbol .dot] else []

def StatementTree.tokens : StatementTree → List Token
  | .query goals dot => .symbol .query :: (goals.tokens ++ optionalDot dot)
  | .fact head => head.tokens ++ [.symbol .dot]
  | .rule head body => head.tokens ++ .symbol .neck :: (body.tokens ++ [.symbol .dot])

def ProgramTree.tokens (program : ProgramTree) : List Token :=
  program.flatMap StatementTree.tokens

theorem ProgramTree.tokens_cons (first : StatementTree) (more : ProgramTree) :
    ProgramTree.tokens (first :: more) = first.tokens ++ more.tokens :=
  List.flatMap_cons

def Token.isPlaceholder : Token → Bool
  | .variable name => name = "_"
  | _ => false

/-- The number of underscores on their own.  Each is numbered by how many of them
stand before it, so every part of a derivation has to know how many stand before
its own tokens. -/
def placeholders (tokens : List Token) : Nat :=
  tokens.countP Token.isPlaceholder

/-- The variable for a written name, after a number of underscores. -/
def writtenVar (before : Nat) (name : String) : Var :=
  if name = "_" then "_G" ++ toString before else name

def Functor.name : Functor → String
  | .identifier name => name
  | .string text => text

/-- The first cell of a list with some items. -/
def listFact (items : List Term) (tail : Term) : Fact :=
  match items with
  | [] => ⟨listFunctor, []⟩
  | first :: more => ⟨listFunctor, [first, .list more tail]⟩

mutual

/-- A fact as a goal or a head, where a word is a fact without arguments. -/
def FactTree.fact (before : Nat) : FactTree → Fact
  | .word name => ⟨name, []⟩
  | .bare functor => ⟨functor.name, []⟩
  | .call functor args => ⟨functor.name, args.terms before⟩
  | .list tree => tree.fact before

def ListTree.fact (before : Nat) : ListTree → Fact
  | .empty => ⟨listFunctor, []⟩
  | .closed items => listFact (items.terms before) .emptyList
  | .opened items tail =>
      listFact (items.terms before) (tail.term (before + placeholders items.tokens))

/-- As an argument a word is an atom. -/
def ArgTree.term (before : Nat) : ArgTree → Term
  | .var name => .var (writtenVar before name)
  | .number value => .num value
  | .negative value => .num (-value)
  | .string text => .str text
  | .fact (.word name) => .atom name
  | .fact tree => (tree.fact before).toTerm

def ArgsTree.terms (before : Nat) : ArgsTree → List Term
  | .last arg => [arg.term before]
  | .more arg rest => arg.term before :: rest.terms (before + placeholders arg.tokens)

end

mutual

def ExprTree.expr (before : Nat) : ExprTree → Expr
  | .chain first more =>
      more.extend (before + placeholders first.tokens) (.single (first.product before))

/-- What a chain makes of the part before it. -/
def SumsTree.extend (before : Nat) (sum : Expr) : SumsTree → Expr
  | .done => sum
  | .next op right rest =>
      rest.extend (before + placeholders right.tokens)
        (Reader.extendSum sum op (right.product before))

def ProductTree.product (before : Nat) : ProductTree → Product
  | .chain first more =>
      more.extend (before + placeholders first.tokens) (.single (first.factor before))

/-- What a chain makes of the part before it. -/
def ProductsTree.extend (before : Nat) (product : Product) : ProductsTree → Product
  | .done => product
  | .next op right rest =>
      rest.extend (before + placeholders right.tokens)
        (Reader.extendProduct product op (right.factor before))

def FactorTree.factor (before : Nat) : FactorTree → Factor
  | .number value => .num value
  | .negative value => .num (-value)
  | .var name => .var (writtenVar before name)
  | .paren expr => .paren (expr.expr before)

end

def GoalTree.goal (before : Nat) : GoalTree → Goal
  | .assign target value =>
      .assign (writtenVar before target) (value.expr (before + placeholders [.variable target]))
  | .equation left right =>
      .fact ⟨"=", [left.term before, right.term (before + placeholders left.tokens)]⟩
  | .fact tree => .fact (tree.fact before)

def GoalsTree.goals (before : Nat) : GoalsTree → Query
  | .last goal => [goal.goal before]
  | .more goal rest => goal.goal before :: rest.goals (before + placeholders goal.tokens)

def StatementTree.statement (before : Nat) : StatementTree → Statement
  | .query goals _ => .query (goals.goals before)
  | .fact head => .clause (.fact (head.fact before))
  | .rule head body =>
      .clause (.rule (head.fact before) (body.goals (before + placeholders head.tokens)))

def ProgramTree.statements (before : Nat) : ProgramTree → List Statement
  | [] => []
  | first :: rest =>
      first.statement before :: ProgramTree.statements (before + placeholders first.tokens) rest

theorem ArgsTree.terms_ne_nil (before : Nat) (args : ArgsTree) : args.terms before ≠ [] := by
  cases args <;> simp [ArgsTree.terms]

/-- The first cell of a list is that list. -/
theorem toTerm_listFact {items : List Term} (hitems : items ≠ []) (tail : Term) :
    (listFact items tail).toTerm = .list items tail := by
  cases items with
  | nil => exact absurd rfl hitems
  | cons first more => rfl

theorem Functor.token_injective {functor other : Functor} (hsame : functor.token = other.token) :
    functor = other := by
  cases functor <;> cases other <;> cases hsame <;> rfl

theorem SumOp.token_injective {op other : SumOp} (hsame : op.token = other.token) :
    op = other := by
  cases op <;> cases other <;> first | rfl | cases hsame

theorem ProductOp.token_injective {op other : ProductOp} (hsame : op.token = other.token) :
    op = other := by
  cases op <;> cases other <;> first | rfl | cases hsame

/-- What can follow an argument or a fact: no arguments in parentheses.  Two
derivations that start the same tokens are the same, if what follows each of them
cannot belong to it. -/
def FollowsArg (rest : List Token) : Prop :=
  rest.head? ≠ some (.symbol .leftParen)

/-- What can follow the last of some arguments: no further one either. -/
def FollowsArgs (rest : List Token) : Prop :=
  FollowsArg rest ∧ rest.head? ≠ some (.symbol .comma)

theorem followsArg_symbol {mark : Symbol} (hmark : mark ≠ .leftParen) (rest : List Token) :
    FollowsArg (.symbol mark :: rest) := by
  simpa [FollowsArg] using hmark

theorem followsArgs_symbol {mark : Symbol} (hparen : mark ≠ .leftParen) (hcomma : mark ≠ .comma)
    (rest : List Token) : FollowsArgs (.symbol mark :: rest) := by
  simpa [FollowsArgs, FollowsArg] using ⟨hparen, hcomma⟩

/-- A fact starts with a word, with a string before a parenthesis, or with a bracket. -/
inductive StartsFact : List Token → Prop
  | word (name : String) (rest : List Token) : StartsFact (.identifier name :: rest)
  | string (text : String) (rest : List Token) :
      StartsFact (.string text :: .symbol .leftParen :: rest)
  | bracket (rest : List Token) : StartsFact (.symbol .leftBracket :: rest)

theorem FactTree.startsFact (tree : FactTree) (rest : List Token) :
    StartsFact (tree.tokens ++ rest) := by
  cases tree with
  | word name => exact .word name rest
  | bare functor =>
      cases functor with
      | identifier name => exact .word name _
      | string text => exact .string text _
  | call functor args =>
      cases functor with
      | identifier name => exact .word name _
      | string text => exact .string text _
  | list tree => cases tree <;> exact .bracket _

/-- Of the arguments only facts start like a fact. -/
theorem ArgTree.eq_fact_of_startsFact {arg : ArgTree} {rest : List Token}
    (hstarts : StartsFact (arg.tokens ++ rest)) (hrest : FollowsArg rest) :
    ∃ tree, arg = .fact tree := by
  cases arg with
  | fact tree => exact ⟨tree, rfl⟩
  | string text =>
      generalize hstart : (ArgTree.string text).tokens ++ rest = start at hstarts
      cases hstarts <;> cases hstart
      exact absurd rfl hrest
  | _ => cases hstarts

/-- Arguments do not start with a token that closes something. -/
theorem ArgTree.head_ne (arg : ArgTree) (rest : List Token) :
    (arg.tokens ++ rest).head? ≠ some (.symbol .rightParen) ∧
      (arg.tokens ++ rest).head? ≠ some (.symbol .rightBracket) := by
  cases arg with
  | fact tree =>
      rw [ArgTree.tokens]
      generalize hstart : tree.tokens ++ rest = start
      cases hstart ▸ tree.startsFact rest <;> simp
  | _ => simp [ArgTree.tokens]

theorem ArgsTree.head_ne (args : ArgsTree) (rest : List Token) :
    (args.tokens ++ rest).head? ≠ some (.symbol .rightParen) ∧
      (args.tokens ++ rest).head? ≠ some (.symbol .rightBracket) := by
  cases args with
  | last arg => exact arg.head_ne rest
  | more arg more =>
      rw [ArgsTree.tokens, List.append_assoc]
      exact arg.head_ne _

/-- What a fact is that starts with a functor and a parenthesis. -/
theorem FactTree.of_call {functor : Functor} {tree : FactTree} {rest left : List Token}
    (hsame : functor.token :: .symbol .leftParen :: rest = tree.tokens ++ left)
    (hleft : FollowsArg left) :
    (tree = .bare functor ∧ rest = .symbol .rightParen :: left) ∨
      ∃ args, tree = .call functor args ∧ rest = args.tokens ++ .symbol .rightParen :: left := by
  cases tree with
  | word name =>
      obtain ⟨_, rfl⟩ := List.cons.inj hsame.symm
      exact absurd rfl hleft
  | bare other =>
      obtain ⟨hfunctor, hrest⟩ := List.cons.inj hsame
      obtain rfl := Functor.token_injective hfunctor
      exact .inl ⟨rfl, (List.cons.inj hrest).2⟩
  | call other args =>
      rw [FactTree.tokens] at hsame
      obtain ⟨hfunctor, hrest⟩ := List.cons.inj hsame
      obtain rfl := Functor.token_injective hfunctor
      refine .inr ⟨args, rfl, ?_⟩
      simpa using hrest
  | list tree => cases tree <;> cases functor <;> cases hsame

theorem FactTree.of_word {name : String} {tree : FactTree} {rest left : List Token}
    (hsame : .identifier name :: rest = tree.tokens ++ left) (hrest : FollowsArg rest) :
    tree = .word name ∧ rest = left := by
  cases tree with
  | word other =>
      obtain ⟨hname, hrest⟩ := List.cons.inj hsame
      cases hname
      exact ⟨rfl, hrest⟩
  | bare other =>
      obtain ⟨_, rfl⟩ := List.cons.inj hsame
      exact absurd rfl hrest
  | call other args =>
      obtain ⟨_, rfl⟩ := List.cons.inj hsame
      exact absurd rfl hrest
  | list tree => cases tree <;> cases hsame

theorem FactTree.of_list {list : ListTree} {tree : FactTree} {rest left : List Token}
    (hsame : list.tokens ++ rest = tree.tokens ++ left) :
    ∃ other, tree = .list other ∧ list.tokens ++ rest = other.tokens ++ left := by
  have hstarts : ∃ more, list.tokens ++ rest = .symbol .leftBracket :: more := by
    cases list <;> exact ⟨_, rfl⟩
  obtain ⟨more, hmore⟩ := hstarts
  cases tree with
  | list other => exact ⟨other, rfl, hsame⟩
  | word name => cases hmore.symm.trans hsame
  | bare functor => cases functor <;> cases hmore.symm.trans hsame
  | call functor args => cases functor <;> cases hmore.symm.trans hsame

mutual

theorem FactTree.unique {tree other : FactTree} {rest left : List Token}
    (hsame : tree.tokens ++ rest = other.tokens ++ left) (hrest : FollowsArg rest)
    (hleft : FollowsArg left) : tree = other ∧ rest = left := by
  cases tree with
  | word name =>
      obtain ⟨rfl, rfl⟩ := FactTree.of_word hsame hrest
      exact ⟨rfl, rfl⟩
  | bare functor =>
      rcases FactTree.of_call hsame hleft with ⟨rfl, hmore⟩ | ⟨args, rfl, hmore⟩
      · exact ⟨rfl, (List.cons.inj hmore).2⟩
      · have hhead := (args.head_ne (.symbol .rightParen :: left)).1
        rw [← hmore] at hhead
        exact absurd rfl hhead
  | call functor args =>
      rw [FactTree.tokens, List.cons_append, List.cons_append, List.append_assoc] at hsame
      rcases FactTree.of_call hsame hleft with ⟨rfl, hmore⟩ | ⟨args', rfl, hmore⟩
      · have hhead := (args.head_ne (.symbol .rightParen :: rest)).1
        rw [← List.singleton_append, hmore] at hhead
        exact absurd rfl hhead
      · have hargs := ArgsTree.unique hmore (followsArgs_symbol (by decide) (by decide) rest)
          (followsArgs_symbol (by decide) (by decide) left)
        obtain ⟨rfl, hrest⟩ := hargs
        exact ⟨rfl, (List.cons.inj hrest).2⟩
  | list tree =>
      obtain ⟨other, rfl, hsame⟩ := FactTree.of_list hsame
      obtain ⟨rfl, rfl⟩ := ListTree.unique hsame
      exact ⟨rfl, rfl⟩

theorem ListTree.unique {tree other : ListTree} {rest left : List Token}
    (hsame : tree.tokens ++ rest = other.tokens ++ left) : tree = other ∧ rest = left := by
  have hclose (rest : List Token) : FollowsArgs (.symbol .rightBracket :: rest) :=
    followsArgs_symbol (by decide) (by decide) rest
  have hbar (rest : List Token) : FollowsArgs (.symbol .bar :: rest) :=
    followsArgs_symbol (by decide) (by decide) rest
  have hnonempty {items : ArgsTree} {more rest : List Token}
      (hsame : .symbol .rightBracket :: rest = items.tokens ++ more) : False := by
    apply (items.head_ne more).2
    rw [← hsame]
    rfl
  cases tree with
  | empty =>
      cases other <;> simp only [ListTree.tokens, List.cons_append, List.append_assoc,
        List.nil_append, List.cons.injEq, true_and] at hsame
      · exact ⟨rfl, hsame⟩
      · exact (hnonempty hsame).elim
      · exact (hnonempty hsame).elim
  | closed items =>
      cases other <;> simp only [ListTree.tokens, List.cons_append, List.append_assoc,
        List.nil_append, List.cons.injEq, true_and] at hsame
      · exact (hnonempty hsame.symm).elim
      · obtain ⟨rfl, hrest⟩ := ArgsTree.unique hsame (hclose rest) (hclose left)
        exact ⟨rfl, (List.cons.inj hrest).2⟩
      · cases (ArgsTree.unique hsame (hclose rest) (hbar _)).2
  | opened items tail =>
      cases other <;> simp only [ListTree.tokens, List.cons_append, List.append_assoc,
        List.nil_append, List.cons.injEq, true_and] at hsame
      · exact (hnonempty hsame.symm).elim
      · cases (ArgsTree.unique hsame (hbar _) (hclose left)).2
      · obtain ⟨rfl, hmore⟩ := ArgsTree.unique hsame (hbar _) (hbar _)
        obtain ⟨rfl, hrest⟩ :=
          ArgTree.unique (List.cons.inj hmore).2 (hclose rest).1 (hclose left).1
        exact ⟨rfl, (List.cons.inj hrest).2⟩

theorem ArgTree.unique {tree other : ArgTree} {rest left : List Token}
    (hsame : tree.tokens ++ rest = other.tokens ++ left) (hrest : FollowsArg rest)
    (hleft : FollowsArg left) : tree = other ∧ rest = left := by
  cases tree with
  | fact tree =>
      have hstarts : StartsFact (other.tokens ++ left) := hsame ▸ tree.startsFact rest
      obtain ⟨other, rfl⟩ := ArgTree.eq_fact_of_startsFact hstarts hleft
      obtain ⟨rfl, rfl⟩ := FactTree.unique hsame hrest hleft
      exact ⟨rfl, rfl⟩
  | _ =>
      cases other with
      | fact other =>
          have hstarts := hsame ▸ other.startsFact left
          obtain ⟨tree, htree⟩ := ArgTree.eq_fact_of_startsFact hstarts hrest
          cases htree
      | _ => simp_all [ArgTree.tokens]

theorem ArgsTree.unique {tree other : ArgsTree} {rest left : List Token}
    (hsame : tree.tokens ++ rest = other.tokens ++ left) (hrest : FollowsArgs rest)
    (hleft : FollowsArgs left) : tree = other ∧ rest = left := by
  have hcomma (rest : List Token) : FollowsArg (.symbol .comma :: rest) :=
    followsArg_symbol (by decide) rest
  cases tree with
  | last arg =>
      cases other with
      | last other =>
          obtain ⟨rfl, rfl⟩ := ArgTree.unique hsame hrest.1 hleft.1
          exact ⟨rfl, rfl⟩
      | more other more =>
          rw [ArgsTree.tokens, ArgsTree.tokens, List.append_assoc] at hsame
          obtain ⟨_, rfl⟩ := ArgTree.unique hsame hrest.1 (hcomma _)
          exact absurd rfl hrest.2
  | more arg more =>
      cases other with
      | last other =>
          rw [ArgsTree.tokens, ArgsTree.tokens, List.append_assoc] at hsame
          obtain ⟨_, rfl⟩ := ArgTree.unique hsame (hcomma _) hleft.1
          exact absurd rfl hleft.2
      | more other more' =>
          rw [ArgsTree.tokens, ArgsTree.tokens, List.append_assoc, List.append_assoc] at hsame
          obtain ⟨rfl, hmore⟩ := ArgTree.unique hsame (hcomma _) (hcomma _)
          obtain ⟨rfl, rfl⟩ := ArgsTree.unique (List.cons.inj hmore).2 hrest hleft
          exact ⟨rfl, rfl⟩

end

/-- What can follow a product: no further factor. -/
def FollowsProduct (rest : List Token) : Prop :=
  ∀ op : ProductOp, rest.head? ≠ some op.token

/-- What can follow an expression: no further product either. -/
def FollowsSum (rest : List Token) : Prop :=
  FollowsProduct rest ∧ ∀ op : SumOp, rest.head? ≠ some op.token

theorem followsProduct_sum (op : SumOp) (rest : List Token) :
    FollowsProduct (op.token :: rest) := by
  intro other hhead
  cases op <;> cases other <;> cases hhead

theorem SumsTree.followsProduct (sums : SumsTree) {rest : List Token} (hrest : FollowsSum rest) :
    FollowsProduct (sums.tokens ++ rest) := by
  cases sums with
  | done => exact hrest.1
  | next op right more => exact followsProduct_sum op _

theorem followsSum_symbol {mark : Symbol} (hproduct : ∀ op : ProductOp, .symbol mark ≠ op.token)
    (hsum : ∀ op : SumOp, .symbol mark ≠ op.token) (rest : List Token) :
    FollowsSum (.symbol mark :: rest) := by
  constructor
  · intro op hhead
    exact hproduct op (Option.some.inj hhead)
  · intro op hhead
    exact hsum op (Option.some.inj hhead)

theorem followsSum_close (rest : List Token) : FollowsSum (.symbol .rightParen :: rest) := by
  apply followsSum_symbol
  · rintro ⟨⟩ <;> simp [ProductOp.token]
  · rintro ⟨⟩ <;> simp [SumOp.token]

mutual

theorem ExprTree.unique {tree other : ExprTree} {rest left : List Token}
    (hsame : tree.tokens ++ rest = other.tokens ++ left) (hrest : FollowsSum rest)
    (hleft : FollowsSum left) : tree = other ∧ rest = left := by
  obtain ⟨first, more⟩ := tree
  obtain ⟨first', more'⟩ := other
  rw [ExprTree.tokens, ExprTree.tokens, List.append_assoc, List.append_assoc] at hsame
  obtain ⟨rfl, hmore⟩ := ProductTree.unique hsame (more.followsProduct hrest)
    (more'.followsProduct hleft)
  obtain ⟨rfl, rfl⟩ := SumsTree.unique hmore hrest hleft
  exact ⟨rfl, rfl⟩
termination_by structural tree

theorem SumsTree.unique {tree other : SumsTree} {rest left : List Token}
    (hsame : tree.tokens ++ rest = other.tokens ++ left) (hrest : FollowsSum rest)
    (hleft : FollowsSum left) : tree = other ∧ rest = left := by
  cases tree with
  | done =>
      cases other with
      | done => exact ⟨rfl, hsame⟩
      | next op right more => exact absurd (congrArg List.head? hsame) (hrest.2 op)
  | next op right more =>
      cases other with
      | done => exact absurd (congrArg List.head? hsame.symm) (hleft.2 op)
      | next op' right' more' =>
          rw [SumsTree.tokens, SumsTree.tokens, List.cons_append, List.cons_append,
            List.append_assoc, List.append_assoc] at hsame
          obtain ⟨hop, hmore⟩ := List.cons.inj hsame
          obtain rfl := SumOp.token_injective hop
          obtain ⟨rfl, hlast⟩ := ProductTree.unique hmore (more.followsProduct hrest)
            (more'.followsProduct hleft)
          obtain ⟨rfl, rfl⟩ := SumsTree.unique hlast hrest hleft
          exact ⟨rfl, rfl⟩
termination_by structural tree

theorem ProductTree.unique {tree other : ProductTree} {rest left : List Token}
    (hsame : tree.tokens ++ rest = other.tokens ++ left) (hrest : FollowsProduct rest)
    (hleft : FollowsProduct left) : tree = other ∧ rest = left := by
  obtain ⟨first, more⟩ := tree
  obtain ⟨first', more'⟩ := other
  rw [ProductTree.tokens, ProductTree.tokens, List.append_assoc, List.append_assoc] at hsame
  obtain ⟨rfl, hmore⟩ := FactorTree.unique hsame
  obtain ⟨rfl, rfl⟩ := ProductsTree.unique hmore hrest hleft
  exact ⟨rfl, rfl⟩
termination_by structural tree

theorem ProductsTree.unique {tree other : ProductsTree} {rest left : List Token}
    (hsame : tree.tokens ++ rest = other.tokens ++ left) (hrest : FollowsProduct rest)
    (hleft : FollowsProduct left) : tree = other ∧ rest = left := by
  cases tree with
  | done =>
      cases other with
      | done => exact ⟨rfl, hsame⟩
      | next op right more => exact absurd (congrArg List.head? hsame) (hrest op)
  | next op right more =>
      cases other with
      | done => exact absurd (congrArg List.head? hsame.symm) (hleft op)
      | next op' right' more' =>
          rw [ProductsTree.tokens, ProductsTree.tokens, List.cons_append, List.cons_append,
            List.append_assoc, List.append_assoc] at hsame
          obtain ⟨hop, hmore⟩ := List.cons.inj hsame
          obtain rfl := ProductOp.token_injective hop
          obtain ⟨rfl, hlast⟩ := FactorTree.unique hmore
          obtain ⟨rfl, rfl⟩ := ProductsTree.unique hlast hrest hleft
          exact ⟨rfl, rfl⟩
termination_by structural tree

theorem FactorTree.unique {tree other : FactorTree} {rest left : List Token}
    (hsame : tree.tokens ++ rest = other.tokens ++ left) : tree = other ∧ rest = left := by
  cases tree with
  | paren expr =>
      cases other with
      | paren other =>
          rw [FactorTree.tokens, FactorTree.tokens, List.cons_append, List.cons_append,
            List.append_assoc, List.append_assoc] at hsame
          obtain ⟨rfl, hrest⟩ := ExprTree.unique (List.cons.inj hsame).2 (followsSum_close rest)
            (followsSum_close left)
          exact ⟨rfl, (List.cons.inj hrest).2⟩
      | _ => cases hsame
  | _ => cases other <;> simp_all [FactorTree.tokens]
termination_by structural tree

end

/-- A goal starts with an argument. -/
def GoalTree.first : GoalTree → ArgTree
  | .assign target _ => .var target
  | .equation left _ => left
  | .fact tree => .fact tree

/-- What follows the first argument of a goal. -/
def GoalTree.more : GoalTree → List Token
  | .assign _ value => .identifier "is" :: value.tokens
  | .equation _ right => .symbol .equals :: right.tokens
  | .fact _ => []

theorem GoalTree.tokens_eq (tree : GoalTree) : tree.tokens = tree.first.tokens ++ tree.more := by
  cases tree with
  | fact tree => exact (List.append_nil _).symm
  | _ => rfl

/-- What can follow a goal: no more of an expression, a fact or an equation. -/
structure FollowsGoal (rest : List Token) : Prop where
  arg : FollowsArg rest
  sum : FollowsSum rest
  equals : rest.head? ≠ some (.symbol .equals)

theorem GoalTree.followsArg (tree : GoalTree) {rest : List Token} (hrest : FollowsGoal rest) :
    FollowsArg (tree.more ++ rest) := by
  cases tree with
  | fact tree => exact hrest.arg
  | _ => simp [GoalTree.more, FollowsArg]

theorem GoalTree.unique {tree other : GoalTree} {rest left : List Token}
    (hsame : tree.tokens ++ rest = other.tokens ++ left) (hrest : FollowsGoal rest)
    (hleft : FollowsGoal left) : tree = other ∧ rest = left := by
  rw [tree.tokens_eq, other.tokens_eq, List.append_assoc, List.append_assoc] at hsame
  obtain ⟨hfirst, hmore⟩ := ArgTree.unique hsame (tree.followsArg hrest) (other.followsArg hleft)
  cases tree with
  | assign target value =>
      cases other with
      | assign target' value' =>
          cases hfirst
          obtain ⟨rfl, rfl⟩ := ExprTree.unique (List.cons.inj hmore).2 hrest.sum hleft.sum
          exact ⟨rfl, rfl⟩
      | equation left right => cases hmore
      | fact tree => cases hfirst
  | equation first second =>
      cases other with
      | assign target value => cases hmore
      | equation first' second' =>
          obtain rfl : first = first' := hfirst
          obtain ⟨rfl, rfl⟩ := ArgTree.unique (List.cons.inj hmore).2 hrest.arg hleft.arg
          exact ⟨rfl, rfl⟩
      | fact tree => exact absurd (congrArg List.head? hmore.symm) hleft.equals
  | fact tree =>
      cases other with
      | assign target value => cases hfirst
      | equation first second => exact absurd (congrArg List.head? hmore) hrest.equals
      | fact other =>
          cases hfirst
          exact ⟨rfl, hmore⟩

/-- What can follow the last of some goals. -/
structure FollowsGoals (rest : List Token) : Prop extends FollowsGoal rest where
  comma : rest.head? ≠ some (.symbol .comma)

/-- What can follow a query that has no dot. -/
structure FollowsQuery (rest : List Token) : Prop extends FollowsGoals rest where
  dot : rest.head? ≠ some (.symbol .dot)

theorem followsGoal_symbol {mark : Symbol} (hmark : mark = .comma ∨ mark = .dot)
    (rest : List Token) : FollowsGoal (.symbol mark :: rest) := by
  constructor
  · rcases hmark with rfl | rfl <;> exact followsArg_symbol (by decide) rest
  · apply followsSum_symbol
    · rcases hmark with rfl | rfl <;> rintro ⟨⟩ <;> simp [ProductOp.token]
    · rcases hmark with rfl | rfl <;> rintro ⟨⟩ <;> simp [SumOp.token]
  · rcases hmark with rfl | rfl <;> simp

theorem followsGoals_dot (rest : List Token) : FollowsGoals (.symbol .dot :: rest) :=
  ⟨followsGoal_symbol (.inr rfl) rest, by simp⟩

theorem GoalsTree.unique {tree other : GoalsTree} {rest left : List Token}
    (hsame : tree.tokens ++ rest = other.tokens ++ left) (hrest : FollowsGoals rest)
    (hleft : FollowsGoals left) : tree = other ∧ rest = left := by
  have hcomma (rest : List Token) : FollowsGoal (.symbol .comma :: rest) :=
    followsGoal_symbol (.inl rfl) rest
  induction tree generalizing other with
  | last goal =>
      cases other with
      | last other =>
          obtain ⟨rfl, rfl⟩ := GoalTree.unique hsame hrest.toFollowsGoal hleft.toFollowsGoal
          exact ⟨rfl, rfl⟩
      | more other more =>
          rw [GoalsTree.tokens, GoalsTree.tokens, List.append_assoc] at hsame
          obtain ⟨_, rfl⟩ := GoalTree.unique hsame hrest.toFollowsGoal (hcomma _)
          exact absurd rfl hrest.comma
  | more goal more ih =>
      cases other with
      | last other =>
          rw [GoalsTree.tokens, GoalsTree.tokens, List.append_assoc] at hsame
          obtain ⟨_, rfl⟩ := GoalTree.unique hsame (hcomma _) hleft.toFollowsGoal
          exact absurd rfl hleft.comma
      | more other more' =>
          rw [GoalsTree.tokens, GoalsTree.tokens, List.append_assoc, List.append_assoc] at hsame
          obtain ⟨rfl, hmore⟩ := GoalTree.unique hsame (hcomma _) (hcomma _)
          obtain ⟨rfl, rfl⟩ := ih (List.cons.inj hmore).2
          exact ⟨rfl, rfl⟩

theorem followsQuery_nil : FollowsQuery [] where
  arg := by simp [FollowsArg]
  sum := ⟨by simp [FollowsProduct], by simp⟩
  equals := by simp
  comma := by simp
  dot := by simp

/-- Only signs that start a statement can follow a query that has no dot. -/
theorem followsQuery_cons {first : Token} (rest : List Token)
    (hfirst : ∀ mark, first = .symbol mark → mark = .query ∨ mark = .leftBracket) :
    FollowsQuery (first :: rest) := by
  have hne {mark : Symbol} (hquery : mark ≠ .query) (hbracket : mark ≠ .leftBracket) :
      (first :: rest).head? ≠ some (.symbol mark) := by
    intro hhead
    rcases hfirst mark (Option.some.inj hhead) with rfl | rfl
    · exact hquery rfl
    · exact hbracket rfl
  constructor
  · constructor
    · constructor
      · exact hne (by decide) (by decide)
      · constructor
        · rintro ⟨⟩ <;> exact hne (by decide) (by decide)
        · rintro ⟨⟩ <;> exact hne (by decide) (by decide)
      · exact hne (by decide) (by decide)
    · exact hne (by decide) (by decide)
  · exact hne (by decide) (by decide)

theorem StartsFact.followsQuery {rest : List Token} (hrest : StartsFact rest) :
    FollowsQuery rest := by
  cases hrest <;> apply followsQuery_cons <;> rintro mark ⟨⟩
  exact .inr rfl

theorem StatementTree.startsFact_fact (head : FactTree) (rest : List Token) :
    StartsFact ((StatementTree.fact head).tokens ++ rest) := by
  rw [StatementTree.tokens, List.append_assoc]
  exact head.startsFact _

theorem StatementTree.startsFact_rule (head : FactTree) (body : GoalsTree) (rest : List Token) :
    StartsFact ((StatementTree.rule head body).tokens ++ rest) := by
  rw [StatementTree.tokens, List.append_assoc]
  exact head.startsFact _

theorem StatementTree.not_startsFact_query (goals : GoalsTree) (dot : Bool) (rest : List Token) :
    ¬ StartsFact ((StatementTree.query goals dot).tokens ++ rest) := by
  intro hstarts
  cases hstarts

theorem StatementTree.followsQuery (tree : StatementTree) (rest : List Token) :
    FollowsQuery (tree.tokens ++ rest) := by
  cases tree with
  | query goals dot =>
      apply followsQuery_cons
      rintro mark ⟨⟩
      exact .inl rfl
  | fact head => exact (startsFact_fact head rest).followsQuery
  | rule head body => exact (startsFact_rule head body rest).followsQuery

theorem StartsFact.exists_cons {rest : List Token} (hrest : StartsFact rest) :
    ∃ first more, rest = first :: more ∧ first ≠ .endOfText ∧ first ≠ .symbol .colon := by
  cases hrest <;> exact ⟨_, _, rfl, by simp⟩

/-- A statement starts with neither the sign of a directive nor the end. -/
theorem StatementTree.exists_cons (tree : StatementTree) (rest : List Token) :
    ∃ first more, tree.tokens ++ rest = first :: more ∧ first ≠ .endOfText ∧
      first ≠ .symbol .colon := by
  cases tree with
  | query goals dot => exact ⟨_, _, rfl, by simp⟩
  | fact head => exact (startsFact_fact head rest).exists_cons
  | rule head body => exact (startsFact_rule head body rest).exists_cons

theorem FollowsQuery.of_head? {rest left : List Token} (hleft : FollowsQuery left)
    (hsame : rest.head? = left.head?) : FollowsQuery rest := by
  constructor
  · constructor
    · constructor
      · exact fun hhead => hleft.arg (hsame ▸ hhead)
      · constructor
        · exact fun op hhead => hleft.sum.1 op (hsame ▸ hhead)
        · exact fun op hhead => hleft.sum.2 op (hsame ▸ hhead)
      · exact fun hhead => hleft.equals (hsame ▸ hhead)
    · exact fun hhead => hleft.comma (hsame ▸ hhead)
  · exact fun hhead => hleft.dot (hsame ▸ hhead)

/-- Only statements and the end follow a statement. -/
theorem ProgramTree.followsQuery (program : ProgramTree) {rest : List Token}
    (hrest : FollowsQuery rest) : FollowsQuery (program.tokens ++ rest) := by
  cases program with
  | nil => exact hrest
  | cons first more =>
      rw [ProgramTree.tokens_cons, List.append_assoc]
      exact first.followsQuery _

theorem followsGoals_optionalDot (dot : Bool) {rest : List Token} (hrest : FollowsQuery rest) :
    FollowsGoals (optionalDot dot ++ rest) := by
  cases dot with
  | true => exact followsGoals_dot rest
  | false => exact hrest.toFollowsGoals

theorem StatementTree.unique {tree other : StatementTree} {rest left : List Token}
    (hsame : tree.tokens ++ rest = other.tokens ++ left) (hrest : FollowsQuery rest)
    (hleft : FollowsQuery left) : tree = other ∧ rest = left := by
  have hdot (rest : List Token) : FollowsArg (.symbol .dot :: rest) :=
    followsArg_symbol (by decide) rest
  have hneck (rest : List Token) : FollowsArg (.symbol .neck :: rest) :=
    followsArg_symbol (by decide) rest
  -- a query shows by its first token, and a fact from a rule by what stands behind the head
  cases tree with
  | query goals dot =>
      cases other with
      | query goals' dot' =>
          simp only [StatementTree.tokens, List.cons_append, List.append_assoc] at hsame
          obtain ⟨rfl, hmore⟩ := GoalsTree.unique (List.cons.inj hsame).2
            (followsGoals_optionalDot dot hrest) (followsGoals_optionalDot dot' hleft)
          cases dot with
          | true =>
              cases dot' with
              | true => exact ⟨rfl, (List.cons.inj hmore).2⟩
              | false => exact absurd (congrArg List.head? hmore.symm) hleft.dot
          | false =>
              cases dot' with
              | true => exact absurd (congrArg List.head? hmore) hrest.dot
              | false => exact ⟨rfl, hmore⟩
      | fact head =>
          exact absurd (hsame ▸ startsFact_fact head left) (not_startsFact_query goals dot rest)
      | rule head body =>
          exact absurd (hsame ▸ startsFact_rule head body left)
            (not_startsFact_query goals dot rest)
  | fact head =>
      cases other with
      | query goals dot =>
          exact absurd (hsame ▸ startsFact_fact head rest) (not_startsFact_query goals dot left)
      | fact head' =>
          simp only [StatementTree.tokens, List.append_assoc] at hsame
          obtain ⟨rfl, hmore⟩ := FactTree.unique hsame (hdot rest) (hdot left)
          exact ⟨rfl, (List.cons.inj hmore).2⟩
      | rule head' body =>
          simp only [StatementTree.tokens, List.append_assoc] at hsame
          cases (FactTree.unique hsame (hdot rest) (hneck _)).2
  | rule head body =>
      cases other with
      | query goals dot =>
          exact absurd (hsame ▸ startsFact_rule head body rest)
            (not_startsFact_query goals dot left)
      | fact head' =>
          simp only [StatementTree.tokens, List.append_assoc] at hsame
          cases (FactTree.unique hsame (hneck _) (hdot left)).2
      | rule head' body' =>
          simp only [StatementTree.tokens, List.append_assoc, List.cons_append] at hsame
          obtain ⟨rfl, hmore⟩ := FactTree.unique hsame (hneck _) (hneck _)
          obtain ⟨rfl, hlast⟩ := GoalsTree.unique (List.cons.inj hmore).2 (followsGoals_dot rest)
            (followsGoals_dot left)
          exact ⟨rfl, (List.cons.inj hlast).2⟩

/-- A program has one derivation. -/
theorem ProgramTree.unique {program other : ProgramTree}
    (hsame : program.tokens = other.tokens) : program = other := by
  have hnonempty (first : StatementTree) (more : ProgramTree) :
      ProgramTree.tokens (first :: more) ≠ [] := by
    obtain ⟨token, rest, htokens, _⟩ := first.exists_cons (ProgramTree.tokens more)
    rw [ProgramTree.tokens_cons, htokens]
    exact List.cons_ne_nil _ _
  have hends (program : ProgramTree) : FollowsQuery program.tokens := by
    have hfollows := program.followsQuery followsQuery_nil
    rwa [List.append_nil] at hfollows
  induction program generalizing other with
  | nil =>
      cases other with
      | nil => rfl
      | cons first more => exact absurd hsame.symm (hnonempty first more)
  | cons first more ih =>
      cases other with
      | nil => exact absurd hsame (hnonempty first more)
      | cons first' more' =>
          obtain ⟨rfl, hmore⟩ := StatementTree.unique hsame (hends more) (hends more')
          rw [ih hmore]

end Horn
