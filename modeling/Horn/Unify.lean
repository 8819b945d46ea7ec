/-
Unification under a substitution.  Arguments are unified from left to right,
each under what the ones before it have bound, and of two variables the one
with the smaller name is bound to the other.
-/
import Horn.Bindings

namespace Horn

/-- Why two terms were not unified: they have no common value, or their facts
nest deeper than was asked for. -/
inductive Mismatch
  | clash
  | tooDeep
deriving Repr, DecidableEq

def Bindings.assign (bindings : Bindings) (name : Var) (term : Term) :
    Except Mismatch Bindings :=
  match bindings.bind? name term with
  | some extended => .ok extended
  | none => .error .clash

/-- Combine the arguments at the same places, from left to right. -/
def threadArgs (combine : Term → Term → Bindings → Except Mismatch Bindings) :
    List Term → List Term → Bindings → Except Mismatch Bindings
  | left :: lefts, right :: rights, bindings => do
      threadArgs combine lefts rights (← combine left right bindings)
  | _, _, bindings => .ok bindings

/-- Unify to a nesting of at most `fuel` facts.  Atoms and strings are equal
by text, numbers by their digits. -/
def unifyUpTo : Nat → Term → Term → Bindings → Except Mismatch Bindings
  | 0, _, _, _ => .error .tooDeep
  | fuel + 1, left, right, bindings =>
      match bindings.dereference left, bindings.dereference right with
      | .var first, .var second =>
          if first = second then .ok bindings
          else if first < second then bindings.assign first (.var second)
          else bindings.assign second (.var first)
      | .var name, term => bindings.assign name term
      | term, .var name => bindings.assign name term
      | .num first, .num second =>
          if numberText first = numberText second then .ok bindings else .error .clash
      | .fact functor args, .fact functor' args' =>
          if functor = functor' ∧ args.length = args'.length then
            threadArgs (unifyUpTo fuel) args args' bindings
          else .error .clash
      | first, second =>
          match first.text?, second.text? with
          | some text, some text' => if text = text' then .ok bindings else .error .clash
          | _, _ => .error .clash

/-- A nesting that suffices.  Without cycles, facts met one inside the other
are distinct parts of the two terms and of the values at hand; with cycles a
pair of such parts that comes back makes no progress unless a variable was
bound in between. -/
def unifyFuel (left right : Term) (bindings : Bindings) : Nat :=
  Nat.pow (left.size + right.size + bindings.weight + 1) 3

/-- The substitution extended so that both terms have the same value. -/
def unify (left right : Term) (bindings : Bindings) : Option Bindings :=
  (unifyUpTo (unifyFuel left right bindings) left right bindings).toOption

def unifyFacts (left right : Fact) (bindings : Bindings) : Option Bindings :=
  unify left.toTerm right.toTerm bindings

example : (unify (.var "Y") (.var "X") .empty).map Bindings.render =
    some "\x7bX: Y\x7d" := by decide +kernel

example : (unify (.atom "a") (.str "a") .empty).map Bindings.render =
    some "\x7b\x7d" := by decide +kernel

example : (unify (.var "X") (.fact "f" [.var "X"]) .empty).map Bindings.render =
    none := by decide +kernel

end Horn
