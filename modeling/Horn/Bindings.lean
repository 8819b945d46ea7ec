/-
Substitutions.  A variable may be bound to another variable that is bound in
turn, so values are found by following chains; `bind?` keeps chains free of
cycles, while a substitution built from pairs may hold some.
-/
import Std.Data.ExtTreeMap
import Horn.Term

namespace Horn

/-- A finite map from variables to terms, ordered by name. -/
structure Bindings where
  entries : Std.ExtTreeMap Var Term

namespace Bindings

def empty : Bindings := ⟨∅⟩

/-- The term a variable is bound to, without following chains. -/
def get? (bindings : Bindings) (name : Var) : Option Term :=
  bindings.entries[name]?

/-- Add or replace one entry. -/
def insert (bindings : Bindings) (name : Var) (term : Term) : Bindings :=
  ⟨bindings.entries.insert name term⟩

def size (bindings : Bindings) : Nat :=
  bindings.entries.size

/-- The entries in the order of their names. -/
def toList (bindings : Bindings) : List (Var × Term) :=
  bindings.entries.toList

/-- Of two pairs with one name the later counts.  Nothing else is checked. -/
def ofList (pairs : List (Var × Term)) : Bindings :=
  pairs.foldl (fun bindings pair => bindings.insert pair.1 pair.2) empty

@[simp] theorem get?_empty (name : Var) : empty.get? name = none := by
  simp [empty, get?]

theorem get?_insert (bindings : Bindings) (name other : Var) (term : Term) :
    (bindings.insert name term).get? other =
      if name = other then some term else bindings.get? other := by
  simp [insert, get?, Std.ExtTreeMap.getElem?_insert]

/-- Follow at most `fuel` links of a chain. -/
def followUpTo (bindings : Bindings) : Nat → Term → Term
  | 0, term => term
  | fuel + 1, .var name =>
      match bindings.get? name with
      | some next => bindings.followUpTo fuel next
      | none => .var name
  | _ + 1, term => term

/-- The end of a term's chain: a term that is no variable, or an unbound
variable.  A chain without a cycle meets each entry at most once. -/
def dereference (bindings : Bindings) (term : Term) : Term :=
  bindings.followUpTo (bindings.size + 1) term

/-- The complete value of a variable.  It stays as written if it is unbound,
if its value contains it, or if its value is only another variable. -/
def valueUpTo (bindings : Bindings) : Nat → List Var → Var → Term
  | 0, _, name => .var name
  | fuel + 1, path, name =>
      if name ∈ path then .var name
      else match bindings.get? name with
        | none => .var name
        | some term =>
            let value := term.subst (bindings.valueUpTo fuel (name :: path))
            if value.isVar then .var name else value

/-- Each step into a value lengthens the path by a bound variable, so one more
step than there are entries is enough. -/
def value (bindings : Bindings) (name : Var) : Term :=
  bindings.valueUpTo (bindings.size + 1) [] name

/-- A term with its variables replaced by their complete values. -/
def ground (bindings : Bindings) (term : Term) : Term :=
  term.subst bindings.value

def groundFact (bindings : Bindings) (fact : Fact) : Fact :=
  fact.subst bindings.value

/-- Whether `target` is met on the way into the value of a variable. -/
def reachesUpTo (bindings : Bindings) (target : Var) : Nat → List Var → Var → Bool
  | 0, _, _ => false
  | fuel + 1, path, name =>
      if name = target then true
      else if name ∈ path then false
      else match bindings.get? name with
        | none => false
        | some term => term.occurrences.any (bindings.reachesUpTo target fuel (name :: path))

/-- Whether `target` is reachable from a term through facts and entries. -/
def occurs (bindings : Bindings) (target : Var) (term : Term) : Bool :=
  term.occurrences.any (bindings.reachesUpTo target (bindings.size + 1) [])

end Bindings

/-- Whether two terms have the same shape at the top and the same text. -/
def Term.sameText (left right : Term) : Bool :=
  left.kind = right.kind && left.render = right.render

theorem Term.sameText_iff {left right : Term} :
    left.sameText right = true ↔ left.kind = right.kind ∧ left.render = right.render := by
  rw [sameText, Bool.and_eq_true, decide_eq_true_eq, decide_eq_true_eq]

namespace Bindings

/-- Bind a variable, or rather the unbound end of its chain.  A variable that
already has a value accepts only that value, and none is bound to a term it is
reachable from. -/
def bind? (bindings : Bindings) (name : Var) (term : Term) : Option Bindings :=
  match bindings.dereference (.var name) with
  | .var root =>
      match bindings.dereference term with
      | .var target =>
          if target = root then some bindings
          else if bindings.occurs root term then none
          else some (bindings.insert root term)
      | _ =>
          if bindings.occurs root term then none
          else some (bindings.insert root term)
  | bound =>
      if (bindings.ground bound).sameText (bindings.ground term) then some bindings
      else none

/-- Whether two substitutions have the same names, each with terms of the same
text. -/
def sameText (left right : Bindings) : Bool :=
  left.size = right.size && left.toList.all fun entry =>
    match right.get? entry.1 with
    | some term => entry.2.sameText term
    | none => false

/-- The entries in braces, in the order of their names. -/
def render (bindings : Bindings) : String :=
  "\x7b" ++ ", ".intercalate
    (bindings.toList.map fun entry => entry.1 ++ ": " ++ entry.2.render) ++ "\x7d"

/-- The total size of the values. -/
def weight (bindings : Bindings) : Nat :=
  bindings.toList.foldl (fun total entry => total + entry.2.size) 0

end Bindings

end Horn
