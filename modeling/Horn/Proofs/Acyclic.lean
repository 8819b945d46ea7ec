/-
Substitutions without cycles.  Following entries never comes back to where it
began, so every search through them that is cut off after as many steps as
there are entries ends before it is cut off, and the equations have a solution.
-/
import Mathlib.Data.Finset.Card
import Mathlib.Logic.Relation
import Horn.Proofs.Tree

namespace Horn

namespace Bindings

/-- The second variable occurs in the term the first is bound to. -/
def Link (bindings : Bindings) (name other : Var) : Prop :=
  ∃ term, bindings.get? name = some term ∧ other ∈ term.occurrences

/-- The second variable is met by following entries from the first. -/
def Reaches (bindings : Bindings) : Var → Var → Prop :=
  Relation.ReflTransGen bindings.Link

/-- No variable is reachable from its own value. -/
def Acyclic (bindings : Bindings) : Prop :=
  ∀ name, ¬ Relation.TransGen bindings.Link name name

/-- Entries are never lost or replaced. -/
def Keeps (before after : Bindings) : Prop :=
  ∀ name term, before.get? name = some term → after.get? name = some term

theorem Keeps.refl (bindings : Bindings) : bindings.Keeps bindings :=
  fun _ _ hget => hget

theorem Keeps.trans {first second third : Bindings} (hfirst : first.Keeps second)
    (hsecond : second.Keeps third) : first.Keeps third :=
  fun name term hget => hsecond name term (hfirst name term hget)

theorem acyclic_empty : empty.Acyclic := by
  intro name hcycle
  obtain ⟨other, ⟨term, hget, _⟩, _⟩ := Relation.TransGen.head'_iff.mp hcycle
  simp at hget

theorem link_of_get? {bindings : Bindings} {name other : Var}
    (hget : bindings.get? name = some (.var other)) : bindings.Link name other :=
  ⟨.var other, hget, Term.mem_occurrences_var.mpr rfl⟩

theorem eq_of_reaches_of_unbound {bindings : Bindings} {name other : Var}
    (hunbound : bindings.get? name = none) (hreaches : bindings.Reaches name other) :
    other = name := by
  rcases Relation.ReflTransGen.cases_head hreaches with heq | ⟨next, ⟨term, hget, _⟩, _⟩
  · exact heq.symm
  · simp [hunbound] at hget

open Classical in
/-- The bound variables met from a variable. -/
noncomputable def keysFrom (bindings : Bindings) (name : Var) : Finset Var :=
  bindings.entries.keys.toFinset.filter (bindings.Reaches name)

theorem mem_keysFrom {bindings : Bindings} {name key : Var} :
    key ∈ bindings.keysFrom name ↔
      bindings.get? key ≠ none ∧ bindings.Reaches name key := by
  simp [keysFrom, get?]

/-- How many bound variables are met from a variable. -/
noncomputable def rank (bindings : Bindings) (name : Var) : Nat :=
  (bindings.keysFrom name).card

theorem keysFrom_subset (bindings : Bindings) (name : Var) :
    bindings.keysFrom name ⊆ bindings.entries.keys.toFinset := by
  intro key hkey
  simp only [keysFrom, Finset.mem_filter] at hkey
  exact hkey.1

theorem card_keys_le_size (bindings : Bindings) :
    bindings.entries.keys.toFinset.card ≤ bindings.size := by
  calc bindings.entries.keys.toFinset.card
      ≤ bindings.entries.keys.length := List.toFinset_card_le _
    _ = bindings.size := Std.ExtTreeMap.length_keys

theorem rank_le_size (bindings : Bindings) (name : Var) : bindings.rank name ≤ bindings.size :=
  (Finset.card_le_card (bindings.keysFrom_subset name)).trans bindings.card_keys_le_size

/-- Each step along an entry leaves a bound variable behind for good. -/
theorem Acyclic.rank_lt {bindings : Bindings} (hacyclic : bindings.Acyclic) {name other : Var}
    (hlink : bindings.Link name other) : bindings.rank other < bindings.rank name := by
  apply Finset.card_lt_card
  rw [Finset.ssubset_iff_of_subset]
  · refine ⟨name, mem_keysFrom.mpr ⟨?_, Relation.ReflTransGen.refl⟩, ?_⟩
    · obtain ⟨term, hget, _⟩ := hlink
      simp [hget]
    · intro hname
      exact hacyclic name (Relation.TransGen.head' hlink (mem_keysFrom.mp hname).2)
  · intro key hkey
    obtain ⟨hbound, hreaches⟩ := mem_keysFrom.mp hkey
    exact mem_keysFrom.mpr ⟨hbound, Relation.ReflTransGen.head hlink hreaches⟩

theorem followUpTo_of_not_isVar (bindings : Bindings) (fuel : Nat) {term : Term}
    (hterm : term.isVar = false) : bindings.followUpTo fuel term = term := by
  cases fuel with
  | zero => rw [followUpTo]
  | succ fuel =>
      cases term with
      | var name => simp [Term.isVar] at hterm
      | _ => rfl

theorem dereference_of_not_isVar (bindings : Bindings) {term : Term}
    (hterm : term.isVar = false) : bindings.dereference term = term :=
  bindings.followUpTo_of_not_isVar _ hterm

theorem exists_eq_var_of_dereference {bindings : Bindings} {term : Term}
    (hend : (bindings.dereference term).isVar = true) : ∃ name, term = .var name := by
  cases hterm : term.isVar with
  | true => exact Term.exists_eq_var hterm
  | false =>
      rw [dereference_of_not_isVar bindings hterm, hterm] at hend
      cases hend

theorem dereference_of_unbound {bindings : Bindings} {name : Var}
    (hunbound : bindings.get? name = none) :
    bindings.dereference (.var name) = .var name := by
  rw [dereference, followUpTo, hunbound]

theorem Acyclic.followUpTo_unbound {bindings : Bindings} (hacyclic : bindings.Acyclic)
    {fuel : Nat} {name root : Var} (hfuel : bindings.rank name < fuel)
    (hroot : bindings.followUpTo fuel (.var name) = .var root) :
    bindings.get? root = none ∧ bindings.Reaches name root := by
  induction fuel generalizing name with
  | zero => omega
  | succ fuel ih =>
      rw [followUpTo] at hroot
      cases hget : bindings.get? name with
      | none =>
          simp only [hget, Term.var.injEq] at hroot
          subst hroot
          exact ⟨hget, Relation.ReflTransGen.refl⟩
      | some next =>
          simp only [hget] at hroot
          cases next with
          | var other =>
              have hlink := link_of_get? hget
              have hrank := hacyclic.rank_lt hlink
              obtain ⟨hunbound, hreaches⟩ := ih (by omega) hroot
              exact ⟨hunbound, Relation.ReflTransGen.head hlink hreaches⟩
          | _ =>
              rw [followUpTo_of_not_isVar bindings fuel rfl] at hroot
              cases hroot

/-- A chain that ends in a variable ends in an unbound one. -/
theorem Acyclic.dereference_var {bindings : Bindings} (hacyclic : bindings.Acyclic)
    {name root : Var} (hroot : bindings.dereference (.var name) = .var root) :
    bindings.get? root = none ∧ bindings.Reaches name root :=
  hacyclic.followUpTo_unbound (Nat.lt_succ_of_le (bindings.rank_le_size name)) hroot

theorem Acyclic.unbound_of_dereference {bindings : Bindings} (hacyclic : bindings.Acyclic)
    {term : Term} {root : Var} (hroot : bindings.dereference term = .var root) :
    bindings.get? root = none := by
  cases term with
  | var name => exact (hacyclic.dereference_var hroot).1
  | _ =>
      rw [dereference_of_not_isVar bindings rfl] at hroot
      cases hroot

/-- Following links only ever meets the terms of entries. -/
theorem followUpTo_eq_or (bindings : Bindings) (fuel : Nat) (term : Term) :
    bindings.followUpTo fuel term = term ∨
      ∃ name, bindings.get? name = some (bindings.followUpTo fuel term) := by
  induction fuel generalizing term with
  | zero => exact Or.inl (by rw [followUpTo])
  | succ fuel ih =>
      cases term with
      | var name =>
          rw [followUpTo]
          cases hget : bindings.get? name with
          | none => exact Or.inl rfl
          | some next =>
              rcases ih next with hsame | hentry
              · exact Or.inr ⟨name, by simp only [hsame, hget]⟩
              · exact Or.inr hentry
      | _ => exact Or.inl rfl

theorem dereference_eq_or (bindings : Bindings) (term : Term) :
    bindings.dereference term = term ∨
      ∃ name, bindings.get? name = some (bindings.dereference term) :=
  bindings.followUpTo_eq_or _ term

theorem Acyclic.reachesUpTo_iff {bindings : Bindings} (hacyclic : bindings.Acyclic)
    {target name : Var} {fuel : Nat} {path : List Var} (hfuel : bindings.rank name < fuel)
    (hpath : ∀ passed ∈ path, bindings.rank name < bindings.rank passed) :
    bindings.reachesUpTo target fuel path name = true ↔ bindings.Reaches name target := by
  induction fuel generalizing name path with
  | zero => omega
  | succ fuel ih =>
      rw [reachesUpTo]
      by_cases htarget : name = target
      · simp only [htarget, if_true, true_iff]
        exact Relation.ReflTransGen.refl
      have hnew : name ∉ path := fun hname => Nat.lt_irrefl _ (hpath name hname)
      simp only [htarget, hnew, if_false]
      cases hget : bindings.get? name with
      | none =>
          simp only [Bool.false_eq_true, false_iff]
          intro hreaches
          exact htarget (eq_of_reaches_of_unbound hget hreaches).symm
      | some term =>
          simp only [List.any_eq_true]
          have hnext : ∀ next, bindings.Link name next →
              (bindings.reachesUpTo target fuel (name :: path) next = true ↔
                bindings.Reaches next target) := by
            intro next hlink
            have hrank := hacyclic.rank_lt hlink
            exact ih (by omega) (List.forall_mem_cons.mpr ⟨hrank, fun passed hpassed =>
              hrank.trans (hpath passed hpassed)⟩)
          constructor
          · rintro ⟨next, hmem, hfound⟩
            have hlink : bindings.Link name next := ⟨term, hget, hmem⟩
            exact Relation.ReflTransGen.head hlink ((hnext next hlink).mp hfound)
          · intro hreaches
            rcases Relation.ReflTransGen.cases_head hreaches with heq | ⟨next, hlink, htail⟩
            · exact absurd heq htarget
            obtain ⟨term', hget', hmem⟩ := hlink
            obtain rfl : term = term' := Option.some.inj (hget.symm.trans hget')
            exact ⟨next, hmem, (hnext next ⟨term, hget, hmem⟩).mpr htail⟩

/-- The occurs check finds exactly the variables that are reachable. -/
theorem Acyclic.occurs_iff {bindings : Bindings} (hacyclic : bindings.Acyclic) {target : Var}
    {term : Term} :
    bindings.occurs target term = true ↔
      ∃ name ∈ term.occurrences, bindings.Reaches name target := by
  rw [occurs, List.any_eq_true]
  refine exists_congr fun name => and_congr_right fun _ => ?_
  exact hacyclic.reachesUpTo_iff (Nat.lt_succ_of_le (bindings.rank_le_size name)) (by simp)

/-- Solve the equations for at most `fuel` steps, and give unbound variables
what they have in `base`. -/
def solveUpTo (bindings : Bindings) (base : Valuation) : Nat → Valuation
  | 0, name => base name
  | fuel + 1, name =>
      match bindings.get? name with
      | none => base name
      | some term => term.eval (bindings.solveUpTo base fuel)

theorem Acyclic.solveUpTo_eq {bindings : Bindings} (hacyclic : bindings.Acyclic)
    (base : Valuation) {fuel more : Nat} {name : Var} (hfuel : bindings.rank name < fuel)
    (hmore : bindings.rank name < more) :
    bindings.solveUpTo base fuel name = bindings.solveUpTo base more name := by
  induction fuel generalizing more name with
  | zero => omega
  | succ fuel ih =>
      cases more with
      | zero => omega
      | succ more =>
          simp only [solveUpTo]
          cases hget : bindings.get? name with
          | none => rfl
          | some term =>
              apply (Term.eval_eq_iff term _ _).mpr
              intro other hother
              have hrank := hacyclic.rank_lt ⟨term, hget, hother⟩
              exact ih (by omega) (by omega)

/-- Any values of the unbound variables extend to a solution. -/
theorem Acyclic.exists_satisfies {bindings : Bindings} (hacyclic : bindings.Acyclic)
    (base : Valuation) :
    ∃ valuation : Valuation, valuation.Satisfies bindings ∧
      ∀ name, bindings.get? name = none → valuation name = base name := by
  refine ⟨bindings.solveUpTo base (bindings.size + 1), ?_, ?_⟩
  · intro name term hget
    have hsize := bindings.rank_le_size name
    rw [solveUpTo]
    simp only [hget]
    apply (Term.eval_eq_iff term _ _).mpr
    intro other hother
    have hrank := hacyclic.rank_lt ⟨term, hget, hother⟩
    exact hacyclic.solveUpTo_eq base (by omega) (by omega)
  · intro name hunbound
    rw [solveUpTo]
    simp only [hunbound]

/-- In a solution, what is reachable has a part of the value, so a variable
that is reachable from a compound term cannot have that term's value. -/
theorem size_le_of_reaches {bindings : Bindings} {valuation : Valuation}
    (hsatisfies : valuation.Satisfies bindings) {name other : Var}
    (hreaches : bindings.Reaches name other) :
    (valuation other).size ≤ (valuation name).size := by
  induction hreaches with
  | refl => exact Nat.le_refl _
  | tail _ hlink ih =>
      obtain ⟨term, hget, hother⟩ := hlink
      refine Nat.le_trans ?_ ih
      rw [hsatisfies _ term hget]
      exact Term.size_le_of_mem_occurrences valuation hother

theorem keeps_insert {bindings : Bindings} {root : Var} (hunbound : bindings.get? root = none)
    (term : Term) : bindings.Keeps (bindings.insert root term) := by
  intro name value hget
  rw [get?_insert]
  split
  · next heq =>
      subst heq
      simp [hunbound] at hget
  · exact hget

theorem satisfies_insert_iff {bindings : Bindings} {root : Var}
    (hunbound : bindings.get? root = none) (term : Term) (valuation : Valuation) :
    valuation.Satisfies (bindings.insert root term) ↔
      valuation.Satisfies bindings ∧ valuation root = term.eval valuation := by
  constructor
  · intro hsatisfies
    refine ⟨fun name value hget => ?_, ?_⟩
    · exact hsatisfies name value (keeps_insert hunbound term name value hget)
    · exact hsatisfies root term (by simp [get?_insert])
  · rintro ⟨hsatisfies, hroot⟩ name value hget
    rw [get?_insert] at hget
    split at hget
    · next heq =>
        subst heq
        rw [← Option.some.inj hget]
        exact hroot
    · exact hsatisfies name value hget

/-- A chain of entries after an insertion was there before, or it passes
through the new entry. -/
theorem reaches_of_transGen_insert {bindings : Bindings} {root : Var} {term : Term}
    {name other : Var} (hpath : Relation.TransGen (bindings.insert root term).Link name other) :
    Relation.TransGen bindings.Link name other ∨
      bindings.Reaches name root ∧ ∃ next ∈ term.occurrences, bindings.Reaches next other := by
  have hlinks : ∀ {left right : Var}, (bindings.insert root term).Link left right →
      bindings.Link left right ∨ left = root ∧ right ∈ term.occurrences := by
    rintro left right ⟨value, hget, hright⟩
    rw [get?_insert] at hget
    split at hget
    · next heq => exact Or.inr ⟨heq.symm, Option.some.inj hget ▸ hright⟩
    · exact Or.inl ⟨value, hget, hright⟩
  induction hpath with
  | single hlink =>
      rcases hlinks hlink with hold | ⟨rfl, hnext⟩
      · exact Or.inl (Relation.TransGen.single hold)
      · exact Or.inr ⟨Relation.ReflTransGen.refl, _, hnext, Relation.ReflTransGen.refl⟩
  | tail _ hlink ih =>
      rcases hlinks hlink with hlast | ⟨rfl, hlast⟩
      · rcases ih with hold | ⟨hroot, next, hnext, hreaches⟩
        · exact Or.inl (hold.tail hlast)
        · exact Or.inr ⟨hroot, next, hnext, hreaches.tail hlast⟩
      · rcases ih with hold | ⟨hroot, _⟩
        · exact Or.inr ⟨hold.to_reflTransGen, _, hlast, Relation.ReflTransGen.refl⟩
        · exact Or.inr ⟨hroot, _, hlast, Relation.ReflTransGen.refl⟩

/-- An entry for a variable that its term does not reach closes no cycle. -/
theorem Acyclic.insert {bindings : Bindings} (hacyclic : bindings.Acyclic) {root : Var}
    {term : Term} (hfree : ∀ name ∈ term.occurrences, ¬ bindings.Reaches name root) :
    (bindings.insert root term).Acyclic := by
  intro name hcycle
  rcases reaches_of_transGen_insert hcycle with hold | ⟨hroot, next, hnext, hreaches⟩
  · exact hacyclic name hold
  · exact hfree next hnext (Relation.ReflTransGen.trans hreaches hroot)

/-- A single entry whose variable does not occur in its term. -/
theorem acyclic_single {name : Var} {term : Term} (hfree : name ∉ term.occurrences) :
    (empty.insert name term).Acyclic := by
  apply acyclic_empty.insert
  intro other hother hreaches
  have heq := eq_of_reaches_of_unbound (get?_empty other) hreaches
  exact hfree (heq ▸ hother)

end Bindings

end Horn
