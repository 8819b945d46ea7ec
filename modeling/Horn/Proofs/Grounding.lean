/-
Complete values.  A variable that is left in a complete value leads to an
unbound one, so a value that all solutions agree on has no variables.
-/
import Horn.Proofs.Binding
import Horn.Proofs.Renamed

namespace Horn

namespace Bindings

theorem Acyclic.followUpTo_eq {bindings : Bindings} (hacyclic : bindings.Acyclic)
    {fuel more : Nat} {name : Var} (hfuel : bindings.rank name < fuel)
    (hmore : bindings.rank name < more) :
    bindings.followUpTo fuel (.var name) = bindings.followUpTo more (.var name) := by
  induction fuel generalizing more name with
  | zero => omega
  | succ fuel ih =>
      obtain ⟨more, rfl⟩ := Nat.exists_eq_add_of_lt (Nat.zero_lt_of_lt hmore)
      rw [Nat.zero_add] at hmore ⊢
      rw [followUpTo, followUpTo]
      cases hget : bindings.get? name with
      | none => rfl
      | some next =>
          cases next with
          | var other =>
              have hrank := hacyclic.rank_lt (link_of_get? hget)
              exact ih (by omega) (by omega)
          | _ =>
              simp only
              rw [followUpTo_of_not_isVar bindings fuel rfl,
                followUpTo_of_not_isVar bindings more rfl]

/-- The chain of a bound variable is that of its term. -/
theorem Acyclic.dereference_of_get? {bindings : Bindings} (hacyclic : bindings.Acyclic)
    {name : Var} {term : Term} (hget : bindings.get? name = some term) :
    bindings.dereference (.var name) = bindings.dereference term := by
  have hstep : bindings.dereference (.var name) = bindings.followUpTo bindings.size term := by
    rw [dereference, followUpTo, hget]
  rw [hstep]
  cases term with
  | var other =>
      have hrank := hacyclic.rank_lt (link_of_get? hget)
      have hsize := bindings.rank_le_size name
      exact hacyclic.followUpTo_eq (by omega) (by omega)
  | _ =>
      rw [dereference_of_not_isVar bindings rfl, followUpTo_of_not_isVar bindings _ rfl]

/-- An entry for an unbound variable changes only the chains that end in it: they
go on to the end of the term. -/
theorem Acyclic.dereference_insert {bindings : Bindings} (hacyclic : bindings.Acyclic)
    {root : Var} (hunbound : bindings.get? root = none) {term : Term}
    (hinserted : (bindings.insert root term).Acyclic) (name : Var) :
    (bindings.dereference (.var name) = .var root →
      (bindings.insert root term).dereference (.var name) =
        (bindings.insert root term).dereference term) ∧
    (bindings.dereference (.var name) ≠ .var root →
      (bindings.insert root term).dereference (.var name) = bindings.dereference (.var name)) := by
  induction hrank : bindings.rank name using Nat.strong_induction_on generalizing name with
  | _ rank ih =>
      have hget := bindings.get?_insert root name term
      cases hold : bindings.get? name with
      | none =>
          rw [dereference_of_unbound hold]
          by_cases hsame : root = name
          · subst hsame
            rw [if_pos rfl] at hget
            exact ⟨fun _ => hinserted.dereference_of_get? hget, fun hne => absurd rfl hne⟩
          · rw [if_neg hsame, hold] at hget
            exact ⟨fun heq => absurd (Term.var.inj heq).symm hsame,
              fun _ => dereference_of_unbound hget⟩
      | some next =>
          have hdiffer : root ≠ name := by
            rintro rfl
            rw [hunbound] at hold
            cases hold
          rw [if_neg hdiffer, hold] at hget
          rw [hinserted.dereference_of_get? hget, hacyclic.dereference_of_get? hold]
          cases next with
          | var other => exact ih _ (hrank ▸ hacyclic.rank_lt (link_of_get? hold)) other rfl
          | _ =>
              rw [dereference_of_not_isVar bindings rfl, dereference_of_not_isVar _ rfl]
              exact ⟨fun heq => (by cases heq), fun _ => rfl⟩

theorem Acyclic.rank_lt_of_mem_dereference {bindings : Bindings} (hacyclic : bindings.Acyclic)
    {name other : Var} (hend : (bindings.dereference (.var name)).isVar = false)
    (hother : other ∈ (bindings.dereference (.var name)).occurrences) :
    bindings.rank other < bindings.rank name := by
  induction hrank : bindings.rank name using Nat.strong_induction_on generalizing name with
  | _ rank ih =>
      cases hget : bindings.get? name with
      | none => simp [dereference_of_unbound hget, Term.isVar] at hend
      | some term =>
          rw [hacyclic.dereference_of_get? hget] at hend hother
          cases term with
          | var next =>
              have hnext := hrank ▸ hacyclic.rank_lt (link_of_get? hget)
              exact (ih _ hnext hend hother rfl).trans hnext
          | _ =>
              rw [dereference_of_not_isVar bindings rfl] at hother
              exact hrank ▸ hacyclic.rank_lt ⟨_, hget, hother⟩

/-- A value does not depend on the steps that are left and on the path. -/
theorem Acyclic.valueUpTo_eq {bindings : Bindings} (hacyclic : bindings.Acyclic)
    {fuel more : Nat} {path passed : List Var} {name : Var} (hfuel : bindings.rank name < fuel)
    (hmore : bindings.rank name < more)
    (hpath : ∀ other ∈ path, bindings.rank name < bindings.rank other)
    (hpassed : ∀ other ∈ passed, bindings.rank name < bindings.rank other) :
    bindings.valueUpTo fuel path name = bindings.valueUpTo more passed name := by
  induction fuel generalizing more path passed name with
  | zero => omega
  | succ fuel ih =>
      obtain ⟨more, rfl⟩ := Nat.exists_eq_add_of_lt (Nat.zero_lt_of_lt hmore)
      rw [Nat.zero_add] at hmore ⊢
      have hnew : name ∉ path := fun hname => Nat.lt_irrefl _ (hpath name hname)
      have hunmet : name ∉ passed := fun hname => Nat.lt_irrefl _ (hpassed name hname)
      rw [valueUpTo, valueUpTo, if_neg hnew, if_neg hunmet]
      cases hget : bindings.get? name with
      | none => rfl
      | some term =>
          have hsame : term.subst (bindings.valueUpTo fuel (name :: path)) =
              term.subst (bindings.valueUpTo more (name :: passed)) := by
            refine Term.subst_congr fun other hother => ?_
            have hrank := hacyclic.rank_lt ⟨term, hget, hother⟩
            exact ih (by omega) (by omega)
              (List.forall_mem_cons.mpr ⟨hrank, fun before hbefore =>
                hrank.trans (hpath before hbefore)⟩)
              (List.forall_mem_cons.mpr ⟨hrank, fun before hbefore =>
                hrank.trans (hpassed before hbefore)⟩)
          simp only [hsame]

theorem value_of_unbound {bindings : Bindings} {name : Var}
    (hunbound : bindings.get? name = none) : bindings.value name = .var name := by
  rw [value, valueUpTo, if_neg List.not_mem_nil, hunbound]

theorem Acyclic.value_of_get? {bindings : Bindings} (hacyclic : bindings.Acyclic) {name : Var}
    {term : Term} (hget : bindings.get? name = some term) :
    bindings.value name =
      if (bindings.ground term).isVar then .var name else bindings.ground term := by
  have hsame : term.subst (bindings.valueUpTo bindings.size [name]) = bindings.ground term := by
    refine Term.subst_congr fun other hother => ?_
    have hrank := hacyclic.rank_lt ⟨term, hget, hother⟩
    have hsize := bindings.rank_le_size name
    exact hacyclic.valueUpTo_eq (by omega) (by omega) (List.forall_mem_singleton.mpr hrank)
      (by simp)
  rw [value, valueUpTo, if_neg List.not_mem_nil, hget]
  simp only [hsame]

theorem isVar_ground {bindings : Bindings} {term : Term} (hterm : term.isVar = false) :
    (bindings.ground term).isVar = false := by
  cases term with
  | var name => simp [Term.isVar] at hterm
  | _ => rfl

/-- The complete value of a variable is that of the term at the end of its chain;
the variable itself stays where the chain ends in one. -/
theorem Acyclic.value_eq {bindings : Bindings} (hacyclic : bindings.Acyclic) (name : Var) :
    bindings.value name =
      if (bindings.dereference (.var name)).isVar then .var name
      else bindings.ground (bindings.dereference (.var name)) := by
  induction hrank : bindings.rank name using Nat.strong_induction_on generalizing name with
  | _ rank ih =>
      cases hget : bindings.get? name with
      | none =>
          rw [value_of_unbound hget, dereference_of_unbound hget]
          rfl
      | some term =>
          rw [hacyclic.value_of_get? hget, hacyclic.dereference_of_get? hget]
          cases term with
          | var next =>
              have hnext := ih _ (hrank ▸ hacyclic.rank_lt (link_of_get? hget)) next rfl
              change (if (bindings.value next).isVar then _ else bindings.value next) = _
              cases hend : (bindings.dereference (.var next)).isVar with
              | true =>
                  simp only [hend, if_true] at hnext ⊢
                  rw [hnext]
                  rfl
              | false =>
                  simp only [hend, Bool.false_eq_true, if_false] at hnext ⊢
                  rw [hnext, isVar_ground hend]
                  rfl
          | _ => rw [dereference_of_not_isVar bindings rfl, isVar_ground rfl]; rfl

/-- A variable that is left in a complete value leads to an unbound one. -/
theorem Acyclic.isVar_of_mem_value {bindings : Bindings} (hacyclic : bindings.Acyclic)
    {name other : Var} (hother : other ∈ (bindings.value name).occurrences) :
    (bindings.dereference (.var other)).isVar = true := by
  induction hrank : bindings.rank name using Nat.strong_induction_on generalizing name with
  | _ rank ih =>
      rw [hacyclic.value_eq] at hother
      split at hother
      · next hend => rwa [Term.mem_occurrences_var.mp hother]
      · next hend =>
          rw [Bool.not_eq_true] at hend
          obtain ⟨source, hsource, hmem⟩ := Term.mem_occurrences_subst.mp hother
          exact ih _ (hrank ▸ hacyclic.rank_lt_of_mem_dereference hend hsource) hmem rfl

/-- If all solutions give a variable the same tree, its complete value has no
variables: unbound ones could be given any two trees. -/
theorem Acyclic.isGround_value {bindings : Bindings} (hacyclic : bindings.Acyclic) {name : Var}
    (hsame : ∀ left right : Valuation, left.Satisfies bindings → right.Satisfies bindings →
      left name = right name) :
    (bindings.value name).isGround = true := by
  rw [Term.isGround_iff]
  intro other hother
  obtain ⟨left, hleft, hleftBase⟩ := hacyclic.exists_satisfies fun _ => .text ""
  obtain ⟨right, hright, hrightBase⟩ := hacyclic.exists_satisfies fun _ => .number ""
  have hagree : (bindings.value name).eval left = (bindings.value name).eval right := by
    rw [hleft.eval_value, hright.eval_value]
    exact hsame left right hleft hright
  have heq := (Term.eval_eq_iff _ _ _).mp hagree other hother
  have hend := hacyclic.isVar_of_mem_value hother
  cases hroot : bindings.dereference (.var other) with
  | var root =>
      have hunbound := hacyclic.unbound_of_dereference hroot
      have hvalue : ∀ valuation : Valuation, valuation.Satisfies bindings →
          valuation other = valuation root := by
        intro valuation hsatisfies
        have hchain := hsatisfies.eval_dereference (.var other)
        rw [hroot, Term.eval, Term.eval] at hchain
        exact hchain.symm
      rw [hvalue left hleft, hvalue right hright, hleftBase root hunbound,
        hrightBase root hunbound] at heq
      cases heq
  | _ => simp [hroot, Term.isVar] at hend

theorem ground_of_isGround (bindings : Bindings) {term : Term} (hterm : term.isGround = true) :
    bindings.ground term = term :=
  Term.subst_of_isGround hterm bindings.value

end Bindings

end Horn
