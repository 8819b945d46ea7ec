/-
Terms of the logic: variables, atoms, strings, numbers, and facts, which are
both compound terms and the goals and heads of clauses.  Lists are facts named
`|` with two arguments, ending in one with none.
-/
import Horn.Number.Layout

namespace Horn

/-- A variable is its name. -/
abbrev Var := String

inductive Term
  | var (name : Var)
  | atom (text : String)
  | str (text : String)
  | num (value : Float)
  | fact (functor : String) (args : List Term)
deriving Inhabited

/-- A functor applied to arguments. -/
structure Fact where
  functor : String
  args : List Term

/-- The fact as an argument of another. -/
def Fact.toTerm (fact : Fact) : Term :=
  .fact fact.functor fact.args

/-- What clauses are found by. -/
structure Signature where
  functor : String
  arity : Nat
deriving Repr, DecidableEq

def Fact.signature (fact : Fact) : Signature :=
  ⟨fact.functor, fact.args.length⟩

/-- The five shapes of a term. -/
inductive Kind
  | variable
  | atom
  | str
  | number
  | fact
deriving Repr, DecidableEq

def Term.kind : Term → Kind
  | .var _ => .variable
  | .atom _ => .atom
  | .str _ => .str
  | .num _ => .number
  | .fact _ _ => .fact

def Term.isVar : Term → Bool
  | .var _ => true
  | _ => false

/-- Atoms and strings are compared by this text alone. -/
def Term.text? : Term → Option String
  | .atom text => some text
  | .str text => some text
  | _ => none

/-- The functor of list cells and of the empty list. -/
def listFunctor : String := "|"

def Term.emptyList : Term := .fact listFunctor []

/-- The items in order, then the tail. -/
def Term.list (items : List Term) (tail : Term) : Term :=
  items.foldr (fun item rest => .fact listFunctor [item, rest]) tail

/-- Whether a fact is a list cell or the empty list. -/
def Fact.isList (fact : Fact) : Bool :=
  fact.functor = listFunctor && (fact.args.length = 0 || fact.args.length = 2)

mutual

/-- Replace each variable by a term. -/
def Term.subst (image : Var → Term) : Term → Term
  | .var name => image name
  | .atom text => .atom text
  | .str text => .str text
  | .num value => .num value
  | .fact functor args => .fact functor (Term.substAll image args)

def Term.substAll (image : Var → Term) : List Term → List Term
  | [] => []
  | term :: rest => term.subst image :: Term.substAll image rest

end

theorem Term.substAll_eq_map (image : Var → Term) (terms : List Term) :
    Term.substAll image terms = terms.map (Term.subst image) := by
  induction terms with
  | nil => rfl
  | cons term rest ih => simp [Term.substAll, ih]

mutual

/-- Every occurrence of a variable, from left to right. -/
def Term.occurrences : Term → List Var
  | .var name => [name]
  | .atom _ => []
  | .str _ => []
  | .num _ => []
  | .fact _ args => Term.occurrencesAll args

def Term.occurrencesAll : List Term → List Var
  | [] => []
  | term :: rest => term.occurrences ++ Term.occurrencesAll rest

end

theorem Term.occurrencesAll_eq_flatMap (terms : List Term) :
    Term.occurrencesAll terms = terms.flatMap Term.occurrences := by
  induction terms with
  | nil => rfl
  | cons term rest ih => simp [Term.occurrencesAll, ih]

mutual

/-- The number of variables, texts, numbers and functors in a term. -/
def Term.size : Term → Nat
  | .var _ => 1
  | .atom _ => 1
  | .str _ => 1
  | .num _ => 1
  | .fact _ args => 1 + Term.sizeAll args

def Term.sizeAll : List Term → Nat
  | [] => 0
  | term :: rest => term.size + Term.sizeAll rest

end

/-- Each variable once, in order of first occurrence. -/
def Term.variables (term : Term) : List Var :=
  term.occurrences.eraseDups

def Term.isGround (term : Term) : Bool :=
  term.occurrences.isEmpty

def Term.rename (image : Var → Var) (term : Term) : Term :=
  term.subst fun name => .var (image name)

def Fact.occurrences (fact : Fact) : List Var :=
  Term.occurrencesAll fact.args

def Fact.variables (fact : Fact) : List Var :=
  fact.occurrences.eraseDups

def Fact.isGround (fact : Fact) : Bool :=
  fact.occurrences.isEmpty

def Fact.subst (image : Var → Term) (fact : Fact) : Fact :=
  ⟨fact.functor, Term.substAll image fact.args⟩

def Fact.rename (image : Var → Var) (fact : Fact) : Fact :=
  fact.subst fun name => .var (image name)

theorem Fact.toTerm_subst (image : Var → Term) (fact : Fact) :
    (fact.subst image).toTerm = fact.toTerm.subst image := by
  simp [Fact.toTerm, Fact.subst, Term.subst]

mutual

/-- The text of a term.  In the tail of a list a further cell continues the
brackets that are open, the empty list adds nothing, and anything else follows
a bar. -/
def Term.renderAt (inTail : Bool) : Term → String
  | .var name => (if inTail then "|" else "") ++ name
  | .atom text => (if inTail then "|" else "") ++ text
  | .str text => (if inTail then "|" else "") ++ "\"" ++ text ++ "\""
  | .num value => (if inTail then "|" else "") ++ numberText value
  | .fact functor [] =>
      if functor = listFunctor then (if inTail then "" else "[]")
      else (if inTail then "|" else "") ++ functor
  | .fact functor [first, second] =>
      if functor = listFunctor then
        (if inTail then "," else "[") ++ first.renderAt false ++ second.renderAt true ++
          (if inTail then "" else "]")
      else
        (if inTail then "|" else "") ++ functor ++ "(" ++ first.renderAt false ++ "," ++
          second.renderAt false ++ ")"
  | .fact functor (first :: more) =>
      (if inTail then "|" else "") ++ functor ++ "(" ++ first.renderAt false ++
        Term.renderMore more ++ ")"

/-- Further arguments, each after a comma. -/
def Term.renderMore : List Term → String
  | [] => ""
  | term :: rest => "," ++ term.renderAt false ++ Term.renderMore rest

end

def Term.render (term : Term) : String :=
  term.renderAt false

def Fact.render (fact : Fact) : String :=
  fact.toTerm.render

example : (Term.list [.num 1, .var "X"] .emptyList).render = "[1.0,X]" := by decide +kernel

example : (Term.list [.atom "a", .str "b"] (.var "T")).render = "[a,\"b\"|T]" := by
  decide +kernel

example : (Term.fact "f" [.fact "g" [], .num 2.5]).render = "f(g,2.5)" := by decide +kernel

mutual

/-- Equality of shape, text and numeric value; so the two zeros are equal and
a number that is not one differs from itself. -/
def Term.equal : Term → Term → Bool
  | .var left, .var right => left = right
  | .atom left, .atom right => left = right
  | .str left, .str right => left = right
  | .num left, .num right => left == right
  | .fact left leftArgs, .fact right rightArgs =>
      left = right && Term.equalAll leftArgs rightArgs
  | _, _ => false

def Term.equalAll : List Term → List Term → Bool
  | [], [] => true
  | left :: lefts, right :: rights => left.equal right && Term.equalAll lefts rights
  | _, _ => false

end

instance : BEq Term := ⟨Term.equal⟩

instance : BEq Fact := ⟨fun left right =>
  left.functor = right.functor && Term.equalAll left.args right.args⟩

end Horn
