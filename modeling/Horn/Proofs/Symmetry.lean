/-
The two sides of unification.  Which term comes first makes no difference: of two
variables the names decide which is bound, and arguments are taken in the order of
their places, which is the same on both sides.
-/
import Mathlib.Data.String.Basic
import Horn.Proofs.Unification

namespace Horn

theorem threadArgs_comm {combine : Term → Term → Bindings → Except Mismatch Bindings}
    (hcombine : ∀ left right before, combine left right before = combine right left before)
    (lefts rights : List Term) (before : Bindings) :
    threadArgs combine lefts rights before = threadArgs combine rights lefts before := by
  induction lefts generalizing rights before with
  | nil => cases rights <;> rfl
  | cons left lefts ih =>
      cases rights with
      | nil => rfl
      | cons right rights =>
          rw [threadArgs, threadArgs, hcombine left right before]
          exact congrArg _ (funext fun between => ih rights between)

section Level

variable {bindings : Bindings} {left right : Term} (fuel : Nat)

/-- Of two different variables the one with the smaller name is bound, wherever it
stands. -/
theorem unifyUpTo_vars_comm {first second : Var} (hleft : bindings.dereference left = .var first)
    (hright : bindings.dereference right = .var second) :
    unifyUpTo (fuel + 1) left right bindings = unifyUpTo (fuel + 1) right left bindings := by
  rw [unifyUpTo_vars fuel hleft hright, unifyUpTo_vars fuel hright hleft]
  rcases lt_trichotomy first second with hlt | heq | hlt
  · rw [if_neg hlt.ne, if_pos hlt, if_neg hlt.ne', if_neg hlt.asymm]
  · rw [if_pos heq, if_pos heq.symm]
  · rw [if_neg hlt.ne', if_neg hlt.asymm, if_neg hlt.ne, if_pos hlt]

/-- Whatever is met by a term that is no variable, it is compared or bound in the same
way from both sides. -/
theorem unifyUpTo_value_comm (hleft : (bindings.dereference left).isVar = false)
    (hargs : ∀ args args', threadArgs (unifyUpTo fuel) args args' bindings =
      threadArgs (unifyUpTo fuel) args' args bindings) :
    unifyUpTo (fuel + 1) left right bindings = unifyUpTo (fuel + 1) right left bindings := by
  rw [unifyUpTo, unifyUpTo]
  cases hfirst : bindings.dereference left with
  | var first =>
      rw [hfirst] at hleft
      cases hleft
  | fact functor args =>
      cases bindings.dereference right with
      | fact functor' args' =>
          dsimp only
          rw [hargs args args']
          exact if_congr (and_congr eq_comm eq_comm) rfl rfl
      | _ => rfl
  | num value =>
      cases bindings.dereference right with
      | num value' => exact if_congr eq_comm rfl rfl
      | _ => rfl
  | _ =>
      cases bindings.dereference right with
      | atom text => exact if_congr eq_comm rfl rfl
      | str text => exact if_congr eq_comm rfl rfl
      | _ => rfl

end Level

/-- Swapping the terms changes neither the substitution nor the reason for there being
none, at every depth to which facts may nest. -/
theorem unifyUpTo_comm (fuel : Nat) (left right : Term) (bindings : Bindings) :
    unifyUpTo fuel left right bindings = unifyUpTo fuel right left bindings := by
  induction fuel generalizing left right bindings with
  | zero => rfl
  | succ fuel ih =>
      have hargs := fun args args' => threadArgs_comm ih args args' bindings
      cases hleft : (bindings.dereference left).isVar with
      | false => exact unifyUpTo_value_comm fuel hleft hargs
      | true =>
          cases hright : (bindings.dereference right).isVar with
          | false => exact (unifyUpTo_value_comm fuel hright hargs).symm
          | true =>
              obtain ⟨first, hfirst⟩ := Term.exists_eq_var hleft
              obtain ⟨second, hsecond⟩ := Term.exists_eq_var hright
              exact unifyUpTo_vars_comm fuel hfirst hsecond

/-- The two terms count alike for the depth that suffices. -/
theorem unifyFuel_comm (left right : Term) (bindings : Bindings) :
    unifyFuel left right bindings = unifyFuel right left bindings := by
  rw [unifyFuel, unifyFuel, Nat.add_comm left.size]

theorem unify_comm (left right : Term) (bindings : Bindings) :
    unify left right bindings = unify right left bindings := by
  rw [unify, unify, unifyFuel_comm, unifyUpTo_comm]

/-- The order of the two sides is irrelevant: under every substitution, with cycles or
without, two terms unify in one order exactly if they do in the other, with the same
entries, and so do two facts. -/
theorem unification_ignores_order (bindings : Bindings) :
    (∀ left right : Term, unify left right bindings = unify right left bindings) ∧
      ∀ left right : Fact, unifyFacts left right bindings = unifyFacts right left bindings := by
  constructor
  · intro left right
    exact unify_comm left right bindings
  · intro left right
    exact unify_comm left.toTerm right.toTerm bindings

end Horn
