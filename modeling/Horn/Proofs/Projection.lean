/-
What a rule's body found is carried back into the substitution of its caller.
Only values are, so nothing is lost exactly where the values have no variables.
-/
import Horn.Proofs.Grounding
import Horn.Proofs.Plain
import Horn.Search.Machine

namespace Horn

/-- A property of terms that complete values have, if entries have it. -/
structure Stable (property : Term → Prop) : Prop where
  arg : ArgClosed property
  subst : ∀ {term : Term} {image : Var → Term}, property term →
    (∀ name ∈ term.occurrences, property (image name)) → property (term.subst image)

theorem Stable.of_mem {property : Term → Prop} (hstable : Stable property) {term : Term}
    {name : Var} (hterm : property term) (hname : name ∈ term.occurrences) :
    property (.var name) := by
  induction term with
  | var other =>
      rw [Term.mem_occurrences_var] at hname
      rwa [hname]
  | fact functor args ih =>
      obtain ⟨arg, harg, hname⟩ := Term.mem_occurrences_fact.mp hname
      exact ih arg harg (hstable.arg functor args hterm arg harg) hname
  | _ => simp [Term.occurrences] at hname

theorem stable_plain : Stable Term.Plain :=
  ⟨Term.argClosed_plain, Term.Plain.subst⟩

namespace Bindings

theorem Within.valueUpTo {property : Term → Prop} (hstable : Stable property)
    {bindings : Bindings} (hwithin : bindings.Within property) {name : Var}
    (hname : property (.var name)) (fuel : Nat) (path : List Var) :
    property (bindings.valueUpTo fuel path name) := by
  induction fuel generalizing name path with
  | zero => exact hname
  | succ fuel ih =>
      rw [Bindings.valueUpTo]
      split
      · exact hname
      · cases hget : bindings.get? name with
        | none => exact hname
        | some term =>
            have hterm := (hwithin name term hget).2
            simp only
            split
            · exact hname
            · exact hstable.subst hterm fun other hother =>
                ih (hstable.of_mem hterm hother) (name :: path)

theorem Within.value {property : Term → Prop} (hstable : Stable property)
    {bindings : Bindings} (hwithin : bindings.Within property) {name : Var}
    (hname : property (.var name)) : property (bindings.value name) :=
  hwithin.valueUpTo hstable hname _ []

theorem Within.ground {property : Term → Prop} (hstable : Stable property)
    {bindings : Bindings} (hwithin : bindings.Within property) {term : Term}
    (hterm : property term) : property (bindings.ground term) :=
  hstable.subst hterm fun _ hname => hwithin.value hstable (hstable.of_mem hterm hname)

theorem Within.project {property : Term → Prop} (hstable : Stable property)
    {found caller after : Bindings} (hfound : found.Within property)
    (hcaller : caller.Within property) {wanted : List Var}
    (hwanted : ∀ name ∈ wanted, property (.var name))
    (hafter : project found wanted caller = some after) : after.Within property := by
  induction wanted generalizing caller with
  | nil =>
      rw [Horn.project, Option.some.injEq] at hafter
      exact hafter ▸ hcaller
  | cons name wanted ih =>
      obtain ⟨hname, hwanted⟩ := List.forall_mem_cons.mp hwanted
      rw [Horn.project] at hafter
      split at hafter
      · exact ih hcaller hwanted hafter
      · split at hafter
        · next extended hextended =>
            exact ih (hcaller.bind? hname (hfound.value hstable hname) hextended) hwanted hafter
        · cases hafter

/-- The chain of a variable ends in an unbound one or in a term without
variables. -/
def Open (bindings : Bindings) (name : Var) : Prop :=
  (bindings.dereference (.var name)).isVar = true ∨
    (bindings.dereference (.var name)).isGround = true

theorem bind?_of_dereference {bindings : Bindings} (hacyclic : bindings.Acyclic)
    {name root : Var} (hroot : bindings.dereference (.var name) = .var root) (term : Term) :
    bindings.bind? name term = bindings.bind? root term := by
  rw [bind?, bind?, hroot, dereference_of_unbound (hacyclic.unbound_of_dereference hroot)]

theorem bind?_of_bound {bindings : Bindings} {name : Var}
    (hbound : (bindings.dereference (.var name)).isVar = false) (term : Term) :
    bindings.bind? name term =
      if (bindings.ground (bindings.dereference (.var name))).sameText (bindings.ground term)
        then some bindings
      else none := by
  rw [bind?]
  cases hend : bindings.dereference (.var name) with
  | var root => simp [hend, Term.isVar] at hbound
  | _ => rfl

/-- A variable without a value takes any term that is no variable and that does not
reach it. -/
theorem bind?_of_root {bindings : Bindings} (hacyclic : bindings.Acyclic) {name root : Var}
    (hroot : bindings.dereference (.var name) = .var root) {term : Term}
    (hterm : term.isVar = false) :
    bindings.bind? name term =
      if bindings.occurs root term then none else some (bindings.insert root term) := by
  have hne := Term.ne_var_of_not_isVar hterm root
  rw [bind?_of_dereference hacyclic hroot, bind?_of_unbound (hacyclic.unbound_of_dereference hroot)
    (dereference_of_not_isVar bindings hterm) hne]

/-- A solution that gives a variable without a value the value of a term lets it
be bound to that term. -/
theorem bind?_of_solved {bindings : Bindings} {name root : Var} {term : Term}
    {valuation : Valuation} (hacyclic : bindings.Acyclic)
    (hroot : bindings.dereference (.var name) = .var root) (hterm : term.isVar = false)
    (hsatisfies : valuation.Satisfies bindings) (hsolved : valuation name = term.eval valuation) :
    bindings.bind? name term = some (bindings.insert root term) ∧
      (bindings.insert root term).Acyclic ∧ valuation.Satisfies (bindings.insert root term) := by
  have hunbound := hacyclic.unbound_of_dereference hroot
  have hend := dereference_of_not_isVar bindings hterm
  have hne := Term.ne_var_of_not_isVar hterm root
  have hchain := hsatisfies.eval_dereference (.var name)
  rw [hroot, Term.eval, Term.eval] at hchain
  have hequal := hchain.trans hsolved
  have hbind : bindings.bind? name term = some (bindings.insert root term) := by
    rw [bind?_of_root hacyclic hroot hterm, if_neg]
    exact fun hoccurs => eval_ne_of_occurs hacyclic hend hne hoccurs hsatisfies hequal
  exact ⟨hbind, (hacyclic.bind? hbind).1,
    (satisfies_insert_iff hunbound term valuation).mpr ⟨hsatisfies, hequal⟩⟩

/-- A variable with a value accepts the same value, however it is written. -/
theorem assign_settles_of_isGround {bindings : Bindings} (hacyclic : bindings.Acyclic)
    (hwithin : bindings.Within Term.Plain) {name : Var} (hopen : bindings.Open name)
    {value : Term} (hplain : value.Plain) (hground : value.isGround = true) :
    Settles (bindings.assign name value) bindings
      fun valuation => valuation name = value.eval valuation := by
  have hchain : ∀ valuation : Valuation, valuation.Satisfies bindings →
      (bindings.dereference (.var name)).eval valuation = valuation name := by
    intro valuation hsatisfies
    rw [hsatisfies.eval_dereference, Term.eval]
  have hvalue := Term.not_isVar_of_isGround hground
  cases hvar : (bindings.dereference (.var name)).isVar with
  | true =>
      obtain ⟨root, hroot⟩ := Term.exists_eq_var hvar
      have hne : value ≠ .var root := by
        rintro rfl
        simp [Term.isVar] at hvalue
      rw [assign, bind?_of_dereference hacyclic hroot, ← assign]
      refine (assign_settles hacyclic (hacyclic.unbound_of_dereference hroot)
        (dereference_of_not_isVar bindings hvalue) hne).congr fun valuation hsatisfies => ?_
      rw [← hchain valuation hsatisfies, hroot, Term.eval]
  | false =>
      have hbound : (bindings.dereference (.var name)).isGround = true :=
        hopen.resolve_left (by simp [hvar])
      have hboundPlain := hwithin.dereference (Term.Plain.var name)
      have hsame := hboundPlain.sameText_iff hplain hbound hground
      rw [assign, bind?_of_bound hvar, bindings.ground_of_isGround hbound,
        bindings.ground_of_isGround hground]
      by_cases htext : (bindings.dereference (.var name)).sameText value = true
      · rw [if_pos htext]
        apply Extension.refl hacyclic
        intro valuation hsatisfies
        rw [← hchain valuation hsatisfies]
        exact (hsame valuation).mp htext
      · rw [if_neg htext]
        intro valuation hsatisfies heq
        rw [← hchain valuation hsatisfies] at heq
        exact htext ((hsame valuation).mpr heq)

theorem Open.bind? {before after : Bindings} (hacyclic : before.Acyclic) {name other : Var}
    {value : Term} (hground : value.isGround = true) (hopen : before.Open other)
    (hafter : before.bind? name value = some after) : after.Open other := by
  rcases eq_or_of_bind? hafter with rfl | ⟨root, hroot, _, rfl⟩
  · exact hopen
  · have hfree := Term.isGround_iff.mp hground
    have hinserted : (before.insert root value).Acyclic :=
      hacyclic.insert fun other hother => absurd hother (hfree other)
    have hvalue := Term.not_isVar_of_isGround hground
    obtain ⟨hled, hleft⟩ :=
      hacyclic.dereference_insert (hacyclic.unbound_of_dereference hroot) hinserted other
    by_cases hend : before.dereference (.var other) = .var root
    · exact Or.inr (by rw [hled hend, dereference_of_not_isVar _ hvalue, hground])
    · rwa [Open, hleft hend]

end Bindings

/-- Whatever is carried back, the caller keeps what it has. -/
theorem Bindings.Acyclic.project {found caller after : Bindings} (hacyclic : caller.Acyclic)
    {wanted : List Var} (hafter : project found wanted caller = some after) :
    after.Acyclic ∧ caller.Keeps after := by
  induction wanted generalizing caller with
  | nil =>
      rw [Horn.project, Option.some.injEq] at hafter
      exact hafter ▸ ⟨hacyclic, Bindings.Keeps.refl caller⟩
  | cons name wanted ih =>
      rw [Horn.project] at hafter
      split at hafter
      · exact ih hacyclic hafter
      · split at hafter
        · next extended hextended =>
            obtain ⟨hextendedAcyclic, hkeeps⟩ := hacyclic.bind? hextended
            obtain ⟨hafterAcyclic, hrest⟩ := ih hextendedAcyclic hafter
            exact ⟨hafterAcyclic, hkeeps.trans hrest⟩
        · cases hafter

/-- Values without variables are carried over as equations, and they are
refused exactly where the caller has no solution with them. -/
theorem project_settles {found : Bindings} {wanted : List Var}
    (hvalues : ∀ name ∈ wanted,
      (found.value name).Plain ∧ (found.value name).isGround = true)
    {caller : Bindings} (hacyclic : caller.Acyclic) (hwithin : caller.Within Term.Plain)
    (hopen : ∀ name ∈ wanted, caller.Open name) :
    (∀ after, project found wanted caller = some after →
      Extension caller after fun valuation =>
        ∀ name ∈ wanted, valuation name = (found.value name).eval valuation) ∧
    (project found wanted caller = none → ∀ valuation : Valuation,
      valuation.Satisfies caller →
        ¬ ∀ name ∈ wanted, valuation name = (found.value name).eval valuation) := by
  induction wanted generalizing caller with
  | nil =>
      constructor
      · intro after hafter
        rw [project, Option.some.injEq] at hafter
        exact hafter ▸ Extension.refl hacyclic (by simp)
      · intro hnone
        rw [project] at hnone
        cases hnone
  | cons name wanted ih =>
      obtain ⟨⟨hplain, hground⟩, hvalues⟩ := List.forall_mem_cons.mp hvalues
      obtain ⟨hname, hopen⟩ := List.forall_mem_cons.mp hopen
      have hvalue := Term.not_isVar_of_isGround hground
      have hsettles :=
        Bindings.assign_settles_of_isGround hacyclic hwithin hname hplain hground
      simp only [project, hvalue, Bool.false_eq_true, if_false, List.forall_mem_cons]
      rw [Bindings.assign] at hsettles
      cases hbind : caller.bind? name (found.value name) with
      | none =>
          simp only [hbind] at hsettles
          refine ⟨by simp, fun _ valuation hsatisfies hall => ?_⟩
          exact hsettles valuation hsatisfies hall.1
      | some extended =>
          simp only [hbind] at hsettles
          have hextension : Extension caller extended _ := hsettles
          obtain ⟨hsome, hnone⟩ := ih hvalues hextension.acyclic
            (hwithin.bind? (.var name) hplain hbind)
            fun other hother => (hopen other hother).bind? hacyclic hground hbind
          refine ⟨fun after hafter => ?_, fun hfailed valuation hsatisfies hall => ?_⟩
          · exact hextension.trans (hsome after hafter) fun _ => Iff.rfl
          · exact hnone hfailed valuation
              ((hextension.satisfies_iff valuation).mpr ⟨hsatisfies, hall.1⟩) hall.2

end Horn
