/-
Expansion through any substitution.  The variables that are being expanded are
kept on a path, and one that is met again stays as it is, so expansion ends
even where entries lead back to themselves; without cycles what it leaves are
variables that nothing binds.
-/
import Mathlib.Tactic.Choose
import Horn.Proofs.Grounding

namespace Horn

namespace Bindings

/-- One step down from a term: to the entry of a variable that is not on the
path, which it then joins, or to an argument of a fact. -/
inductive Descends (bindings : Bindings) : List Var × Term → List Var × Term → Prop
  | entry {path : List Var} {name : Var} {term : Term} (hnew : name ∉ path)
      (hget : bindings.get? name = some term) :
      Descends bindings (path, .var name) (name :: path, term)
  | argument {path : List Var} {functor : String} {args : List Term} {arg : Term}
      (harg : arg ∈ args) : Descends bindings (path, .fact functor args) (path, arg)

/-- The bound variables that are not on the path. -/
def unmet (bindings : Bindings) (path : List Var) : Finset Var :=
  bindings.entries.keys.toFinset.filter (· ∉ path)

theorem mem_unmet {bindings : Bindings} {path : List Var} {name : Var} :
    name ∈ bindings.unmet path ↔ bindings.get? name ≠ none ∧ name ∉ path := by
  simp [unmet, get?]

theorem card_unmet_cons_lt {bindings : Bindings} {path : List Var} {name : Var} {term : Term}
    (hnew : name ∉ path) (hget : bindings.get? name = some term) :
    (bindings.unmet (name :: path)).card < (bindings.unmet path).card := by
  apply Finset.card_lt_card
  rw [Finset.ssubset_iff_of_subset]
  · refine ⟨name, mem_unmet.mpr ⟨by simp [hget], hnew⟩, ?_⟩
    intro hname
    exact (mem_unmet.mp hname).2 List.mem_cons_self
  · intro other hother
    obtain ⟨hbound, hnot⟩ := mem_unmet.mp hother
    exact mem_unmet.mpr ⟨hbound, fun hmem => hnot (List.mem_cons_of_mem name hmem)⟩

theorem card_unmet_le_size (bindings : Bindings) (path : List Var) :
    (bindings.unmet path).card ≤ bindings.size :=
  (Finset.card_filter_le _ _).trans bindings.card_keys_le_size

/-- Every descent ends, whatever the entries are. -/
theorem wellFounded_descends (bindings : Bindings) :
    WellFounded (Function.swap bindings.Descends) := by
  refine ⟨fun ⟨path, term⟩ => ?_⟩
  -- An entry lowers the number of unmet variables; an argument keeps it and is smaller.
  induction hcount : (bindings.unmet path).card using Nat.strong_induction_on
      generalizing path term with
  | _ count ihEntry =>
      induction term with
      | var name =>
          constructor
          rintro _ (⟨hnew, hget⟩ | _)
          exact ihEntry _ (hcount ▸ card_unmet_cons_lt hnew hget) _ _ rfl
      | fact functor args ihArg =>
          constructor
          rintro _ (_ | ⟨harg⟩)
          exact ihArg _ harg
      | _ =>
          constructor
          rintro _ ⟨⟩

/-- The expansion of a term while the variables of a path are being expanded.
A variable whose entry expands to a variable stays as it was written. -/
inductive Expands (bindings : Bindings) : List Var → Term → Term → Prop
  | again {path : List Var} {name : Var} (hmet : name ∈ path) :
      Expands bindings path (.var name) (.var name)
  | unbound {path : List Var} {name : Var} (hunbound : bindings.get? name = none) :
      Expands bindings path (.var name) (.var name)
  | chained {path : List Var} {name other : Var} {term : Term} (hnew : name ∉ path)
      (hget : bindings.get? name = some term)
      (hterm : Expands bindings (name :: path) term (.var other)) :
      Expands bindings path (.var name) (.var name)
  | entry {path : List Var} {name : Var} {term value : Term} (hnew : name ∉ path)
      (hget : bindings.get? name = some term)
      (hterm : Expands bindings (name :: path) term value) (hvalue : value.isVar = false) :
      Expands bindings path (.var name) value
  | atom {path : List Var} (text : String) : Expands bindings path (.atom text) (.atom text)
  | str {path : List Var} (text : String) : Expands bindings path (.str text) (.str text)
  | num {path : List Var} (value : Float) : Expands bindings path (.num value) (.num value)
  | fact {path : List Var} {args : List Term} (functor : String) (value : Term → Term)
      (hargs : ∀ arg ∈ args, Expands bindings path arg (value arg)) :
      Expands bindings path (.fact functor args) (.fact functor (args.map value))

theorem exists_expands (bindings : Bindings) (path : List Var) (term : Term) :
    ∃ value, bindings.Expands path term value := by
  induction hcall : (path, term) using bindings.wellFounded_descends.induction
      generalizing path term with
  | _ call ih =>
      subst hcall
      cases term with
      | var name =>
          by_cases hmet : name ∈ path
          · exact ⟨_, .again hmet⟩
          cases hget : bindings.get? name with
          | none => exact ⟨_, .unbound hget⟩
          | some next =>
              obtain ⟨value, hvalue⟩ := ih _ (.entry hmet hget) _ _ rfl
              by_cases hvar : value.isVar = true
              · obtain ⟨other, rfl⟩ := Term.exists_eq_var hvar
                exact ⟨_, .chained hmet hget hvalue⟩
              · exact ⟨_, .entry hmet hget hvalue (Bool.eq_false_of_not_eq_true hvar)⟩
      | fact functor args =>
          have hargs : ∀ arg ∈ args, ∃ value, bindings.Expands path arg value :=
            fun arg harg => ih _ (.argument harg) _ _ rfl
          choose! value hvalue using hargs
          exact ⟨_, .fact functor value hvalue⟩
      | atom text => exact ⟨_, .atom text⟩
      | str text => exact ⟨_, .str text⟩
      | num value => exact ⟨_, .num value⟩

/-- Replacing variables by their values gives the expansion, as long as there
are more steps left than unmet variables. -/
theorem Expands.subst_valueUpTo {bindings : Bindings} {path : List Var} {term value : Term}
    (hexpands : bindings.Expands path term value) {fuel : Nat}
    (hfuel : (bindings.unmet path).card ≤ fuel) :
    term.subst (bindings.valueUpTo (fuel + 1) path) = value := by
  induction hexpands generalizing fuel with
  | again hmet => rw [Term.subst, valueUpTo, if_pos hmet]
  | unbound hunbound =>
      rw [Term.subst, valueUpTo, hunbound]
      exact ite_self _
  | @chained path name other term hnew hget _ ih =>
      have hless := card_unmet_cons_lt hnew hget
      obtain ⟨fuel, rfl⟩ := Nat.exists_eq_add_one.mpr (Nat.zero_lt_of_lt (hless.trans_le hfuel))
      have hterm : term.subst (bindings.valueUpTo (fuel + 1) (name :: path)) = .var other :=
        ih (by omega)
      rw [Term.subst, valueUpTo, if_neg hnew, hget]
      simp only [hterm, Term.isVar, if_true]
  | @entry path name term value hnew hget _ hvalue ih =>
      have hless := card_unmet_cons_lt hnew hget
      obtain ⟨fuel, rfl⟩ := Nat.exists_eq_add_one.mpr (Nat.zero_lt_of_lt (hless.trans_le hfuel))
      have hterm : term.subst (bindings.valueUpTo (fuel + 1) (name :: path)) = value :=
        ih (by omega)
      rw [Term.subst, valueUpTo, if_neg hnew, hget]
      simp only [hterm, hvalue, Bool.false_eq_true, if_false]
  | fact functor value _ ih =>
      rw [Term.subst, Term.substAll_eq_map]
      congr 1
      exact List.map_congr_left fun arg harg => ih arg harg hfuel
  | _ => rw [Term.subst]

/-- The complete value of a term is its one expansion. -/
theorem expands_iff {bindings : Bindings} {term value : Term} :
    bindings.Expands [] term value ↔ bindings.ground term = value := by
  have hground : ∀ result, bindings.Expands [] term result → bindings.ground term = result :=
    fun _ hresult => hresult.subst_valueUpTo (bindings.card_unmet_le_size [])
  constructor
  · exact hground value
  · rintro rfl
    obtain ⟨result, hresult⟩ := bindings.exists_expands [] term
    rwa [hground result hresult]

theorem toTerm_groundFact (bindings : Bindings) (fact : Fact) :
    (bindings.groundFact fact).toTerm = bindings.ground fact.toTerm :=
  Fact.toTerm_subst bindings.value fact

/-- The second variable is met by following entries that are variables. -/
def Leads (bindings : Bindings) : Var → Var → Prop :=
  Relation.ReflTransGen fun name next => bindings.get? name = some (.var next)

theorem leads_of_followUpTo {bindings : Bindings} {fuel : Nat} {name root : Var}
    (hroot : bindings.followUpTo fuel (.var name) = .var root) : bindings.Leads name root := by
  induction fuel generalizing name with
  | zero =>
      rw [followUpTo, Term.var.injEq] at hroot
      exact hroot ▸ Relation.ReflTransGen.refl
  | succ fuel ih =>
      rw [followUpTo] at hroot
      cases hget : bindings.get? name with
      | none =>
          simp only [hget, Term.var.injEq] at hroot
          exact hroot ▸ Relation.ReflTransGen.refl
      | some next =>
          simp only [hget] at hroot
          cases next with
          | var other => exact Relation.ReflTransGen.head hget (ih hroot)
          | _ =>
              rw [followUpTo_of_not_isVar bindings fuel rfl] at hroot
              cases hroot

theorem Acyclic.isVar_of_mem_ground {bindings : Bindings} (hacyclic : bindings.Acyclic)
    {term : Term} {name : Var} (hname : name ∈ (bindings.ground term).occurrences) :
    (bindings.dereference (.var name)).isVar = true := by
  obtain ⟨source, _, hmem⟩ := Term.mem_occurrences_subst.mp hname
  exact hacyclic.isVar_of_mem_value hmem

theorem Acyclic.leads_unbound_of_mem_ground {bindings : Bindings} (hacyclic : bindings.Acyclic)
    {term : Term} {name : Var} (hname : name ∈ (bindings.ground term).occurrences) :
    ∃ root, bindings.Leads name root ∧ bindings.get? root = none := by
  obtain ⟨root, hroot⟩ := Term.exists_eq_var (hacyclic.isVar_of_mem_ground hname)
  exact ⟨root, leads_of_followUpTo hroot, hacyclic.unbound_of_dereference hroot⟩

/-- A variable that is left stands for itself from then on. -/
theorem Acyclic.ground_ground {bindings : Bindings} (hacyclic : bindings.Acyclic)
    (term : Term) : bindings.ground (bindings.ground term) = bindings.ground term := by
  have hstays : ∀ name ∈ (bindings.ground term).occurrences,
      bindings.value name = .var name := by
    intro name hname
    rw [hacyclic.value_eq, if_pos (hacyclic.isVar_of_mem_ground hname)]
  calc bindings.ground (bindings.ground term)
      = (bindings.ground term).subst Term.var := Term.subst_congr hstays
    _ = bindings.ground term := Term.rename_eq_self fun _ _ => rfl

end Bindings

/-- Expansion of terms and facts ends on every substitution, and the complete
value is what it gives.  Without cycles a complete value has only variables
whose chains end unbound, is its own complete value, and stands for the same
tree as the term in every solution. -/
theorem ground_is_full_expansion (bindings : Bindings) :
    (bindings.Acyclic → ∀ term : Term,
      (∀ name ∈ (bindings.ground term).occurrences,
        ∃ root, bindings.Leads name root ∧ bindings.get? root = none) ∧
      bindings.ground (bindings.ground term) = bindings.ground term ∧
      ∀ valuation : Valuation, valuation.Satisfies bindings →
        (bindings.ground term).eval valuation = term.eval valuation) ∧
    WellFounded (Function.swap bindings.Descends) ∧
    (∀ term value : Term, bindings.Expands [] term value ↔ bindings.ground term = value) ∧
    ∀ (fact : Fact) (value : Term),
      bindings.Expands [] fact.toTerm value ↔ (bindings.groundFact fact).toTerm = value := by
  refine ⟨fun hacyclic term => ⟨?_, ?_, ?_⟩, ?_, ?_, ?_⟩
  · intro name hname
    exact hacyclic.leads_unbound_of_mem_ground hname
  · exact hacyclic.ground_ground term
  · intro valuation hsatisfies
    exact hsatisfies.eval_ground term
  · exact bindings.wellFounded_descends
  · intro term value
    exact Bindings.expands_iff
  · intro fact value
    rw [Bindings.toTerm_groundFact]
    exact Bindings.expands_iff

/-- A fact around a chain of two variables, and an entry that contains itself. -/
theorem chain_and_cycle_expand :
    let chain := (Bindings.empty.insert "Y" (.var "W")).insert "X" (.fact "f" [.var "Y"])
    let cycle := Bindings.empty.insert "X" (.fact "f" [.var "X"])
    chain.Acyclic ∧ chain.ground (.var "X") = .fact "f" [.var "Y"] ∧
      (∃ root, chain.Leads "Y" root ∧ chain.get? root = none) ∧
      cycle.Expands [] (.var "X") (.fact "f" [.var "X"]) := by
  intro chain cycle
  have hlink : (Bindings.empty.insert "Y" (.var "W")).Acyclic :=
    Bindings.acyclic_single (by decide)
  have hacyclic : chain.Acyclic := by
    apply hlink.insert
    intro name hname hreaches
    have hfound := hlink.occurs_iff.mpr ⟨name, hname, hreaches⟩
    revert hfound
    decide +kernel
  have hground : chain.ground (.var "X") = .fact "f" [.var "Y"] := by rfl
  refine ⟨hacyclic, hground, ?_, ?_⟩
  · apply ((ground_is_full_expansion chain).1 hacyclic (.var "X")).1
    rw [hground]
    decide
  · exact ((ground_is_full_expansion cycle).2.2.1 _ _).mpr rfl

end Horn
