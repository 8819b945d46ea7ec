/-
Single bindings as equations.  An entry added to a substitution without cycles
narrows its solutions by one equation, and where the occurs check refuses an
entry there is nothing to solve.
-/
import Horn.Proofs.Acyclic
import Horn.Unify

namespace Horn

/-- The second substitution has the entries of the first and some more, which
together are worth one equation. -/
structure Extension (before after : Bindings) (equation : Valuation → Prop) : Prop where
  acyclic : after.Acyclic
  keeps : before.Keeps after
  satisfies_iff : ∀ valuation : Valuation,
    valuation.Satisfies after ↔ valuation.Satisfies before ∧ equation valuation

theorem Valuation.Satisfies.of_keeps {before after : Bindings} {valuation : Valuation}
    (hkeeps : before.Keeps after) (hsatisfies : valuation.Satisfies after) :
    valuation.Satisfies before :=
  fun name term hget => hsatisfies name term (hkeeps name term hget)

theorem Extension.refl {bindings : Bindings} (hacyclic : bindings.Acyclic)
    {equation : Valuation → Prop}
    (hequation : ∀ valuation : Valuation, valuation.Satisfies bindings → equation valuation) :
    Extension bindings bindings equation :=
  ⟨hacyclic, Bindings.Keeps.refl bindings,
    fun valuation => ⟨fun h => ⟨h, hequation valuation h⟩, And.left⟩⟩

theorem Extension.trans {before between after : Bindings} {first second both : Valuation → Prop}
    (hfirst : Extension before between first) (hsecond : Extension between after second)
    (hboth : ∀ valuation, both valuation ↔ first valuation ∧ second valuation) :
    Extension before after both where
  acyclic := hsecond.acyclic
  keeps := hfirst.keeps.trans hsecond.keeps
  satisfies_iff valuation := by
    rw [hsecond.satisfies_iff, hfirst.satisfies_iff, hboth, and_assoc]

/-- An equation may be replaced by one with the same solutions. -/
theorem Extension.congr {before after : Bindings} {first second : Valuation → Prop}
    (hextension : Extension before after first)
    (hsame : ∀ valuation : Valuation, valuation.Satisfies before →
      (first valuation ↔ second valuation)) :
    Extension before after second where
  acyclic := hextension.acyclic
  keeps := hextension.keeps
  satisfies_iff valuation := by
    rw [hextension.satisfies_iff]
    exact and_congr_right (hsame valuation)

/-- An attempt to add an equation either adds it, or finds that it has no
solution; it does not give up. -/
def Settles (result : Except Mismatch Bindings) (before : Bindings)
    (equation : Valuation → Prop) : Prop :=
  match result with
  | .ok after => Extension before after equation
  | .error .clash => ∀ valuation : Valuation, valuation.Satisfies before → ¬ equation valuation
  | .error .tooDeep => False

theorem Settles.congr {result : Except Mismatch Bindings} {before : Bindings}
    {first second : Valuation → Prop} (hsettles : Settles result before first)
    (hsame : ∀ valuation : Valuation, valuation.Satisfies before →
      (first valuation ↔ second valuation)) :
    Settles result before second := by
  cases result with
  | ok after => exact Extension.congr hsettles hsame
  | error cause =>
      cases cause with
      | clash =>
          intro valuation hbefore hsecond
          exact hsettles valuation hbefore ((hsame valuation hbefore).mpr hsecond)
      | tooDeep => exact hsettles

namespace Bindings

theorem Acyclic.dereference_dereference {bindings : Bindings} (hacyclic : bindings.Acyclic)
    (term : Term) :
    bindings.dereference (bindings.dereference term) = bindings.dereference term := by
  cases hend : bindings.dereference term with
  | var root => exact dereference_of_unbound (hacyclic.unbound_of_dereference hend)
  | _ => exact dereference_of_not_isVar bindings rfl

/-- Whatever the term at the end of a chain is, an unbound variable takes it
unless it is reachable from it. -/
theorem bind?_of_unbound {bindings : Bindings} {name : Var} {term : Term}
    (hunbound : bindings.get? name = none) (hend : bindings.dereference term = term)
    (hne : term ≠ .var name) :
    bindings.bind? name term =
      if bindings.occurs name term then none else some (bindings.insert name term) := by
  rw [bind?, dereference_of_unbound hunbound, hend]
  cases term with
  | var other =>
      have hother : other ≠ name := fun heq => hne (by rw [heq])
      simp [hother]
  | _ => rfl

theorem toOption_assign (bindings : Bindings) (name : Var) (term : Term) :
    (bindings.assign name term).toOption = bindings.bind? name term := by
  rw [assign]
  cases bindings.bind? name term <;> rfl

/-- A term without a solution for `name` in it: what is reached from a
compound term has a smaller value. -/
theorem eval_ne_of_occurs {bindings : Bindings} (hacyclic : bindings.Acyclic) {name : Var}
    {term : Term} (hend : bindings.dereference term = term) (hne : term ≠ .var name)
    (hoccurs : bindings.occurs name term = true) {valuation : Valuation}
    (hsatisfies : valuation.Satisfies bindings) : valuation name ≠ term.eval valuation := by
  obtain ⟨other, hother, hreaches⟩ := hacyclic.occurs_iff.mp hoccurs
  cases hvar : term.isVar with
  | true =>
      cases term with
      | var target =>
          have hunbound := hacyclic.unbound_of_dereference hend
          rw [Term.mem_occurrences_var] at hother
          subst hother
          exact absurd (by rw [eq_of_reaches_of_unbound hunbound hreaches]) hne
      | _ => simp [Term.isVar] at hvar
  | false =>
      intro heq
      have hlt := Term.size_lt_of_mem_occurrences valuation hvar hother
      have hle := size_le_of_reaches hsatisfies hreaches
      rw [heq] at hle
      omega

theorem assign_settles {bindings : Bindings} (hacyclic : bindings.Acyclic) {name : Var}
    {term : Term} (hunbound : bindings.get? name = none)
    (hend : bindings.dereference term = term) (hne : term ≠ .var name) :
    Settles (bindings.assign name term) bindings
      fun valuation => valuation name = term.eval valuation := by
  rw [assign, bind?_of_unbound hunbound hend hne]
  cases hoccurs : bindings.occurs name term with
  | true =>
      exact fun valuation hsatisfies => eval_ne_of_occurs hacyclic hend hne hoccurs hsatisfies
  | false =>
      refine ⟨hacyclic.insert fun other hother hreaches => ?_, keeps_insert hunbound term,
        satisfies_insert_iff hunbound term⟩
      simp [hacyclic.occurs_iff.mpr ⟨other, hother, hreaches⟩] at hoccurs

end Bindings

/-- A property of terms that passes to the arguments of facts. -/
def ArgClosed (property : Term → Prop) : Prop :=
  ∀ functor args, property (.fact functor args) → ∀ arg ∈ args, property arg

/-- Every key, as a variable, and every term of an entry has a property. -/
def Bindings.Within (property : Term → Prop) (bindings : Bindings) : Prop :=
  ∀ name term, bindings.get? name = some term → property (.var name) ∧ property term

namespace Bindings

theorem within_empty (property : Term → Prop) : empty.Within property := by
  intro name term hget
  simp at hget

theorem Within.dereference {property : Term → Prop} {bindings : Bindings}
    (hwithin : bindings.Within property) {term : Term} (hterm : property term) :
    property (bindings.dereference term) := by
  rcases bindings.dereference_eq_or term with hsame | ⟨name, hget⟩
  · rw [hsame]
    exact hterm
  · exact (hwithin name _ hget).2

theorem Within.insert {property : Term → Prop} {bindings : Bindings}
    (hwithin : bindings.Within property) {name : Var} {term : Term}
    (hname : property (.var name)) (hterm : property term) :
    (bindings.insert name term).Within property := by
  intro other value hget
  rw [get?_insert] at hget
  split at hget
  · next heq =>
      rw [← heq, ← Option.some.inj hget]
      exact ⟨hname, hterm⟩
  · exact hwithin other value hget

/-- Binding a variable changes nothing, or adds one entry for the end of its
chain. -/
theorem eq_or_of_bind? {before after : Bindings} {name : Var} {term : Term}
    (hafter : before.bind? name term = some after) :
    after = before ∨ ∃ root, before.dereference (.var name) = .var root ∧
      before.occurs root term = false ∧ after = before.insert root term := by
  rw [Bindings.bind?] at hafter
  cases hend : before.dereference (.var name) with
  | var root =>
      rw [hend] at hafter
      simp only at hafter
      split at hafter
      · split at hafter
        · exact Or.inl (Option.some.inj hafter).symm
        · split at hafter
          · cases hafter
          · next hoccurs =>
              exact Or.inr ⟨root, rfl, by simpa using hoccurs, (Option.some.inj hafter).symm⟩
      · split at hafter
        · cases hafter
        · next hoccurs =>
            exact Or.inr ⟨root, rfl, by simpa using hoccurs, (Option.some.inj hafter).symm⟩
  | _ =>
      rw [hend] at hafter
      simp only at hafter
      split at hafter
      · exact Or.inl (Option.some.inj hafter).symm
      · cases hafter

theorem Acyclic.bind? {before after : Bindings} (hacyclic : before.Acyclic) {name : Var}
    {term : Term} (hafter : before.bind? name term = some after) :
    after.Acyclic ∧ before.Keeps after := by
  rcases eq_or_of_bind? hafter with rfl | ⟨root, hroot, hoccurs, rfl⟩
  · exact ⟨hacyclic, Keeps.refl _⟩
  · refine ⟨hacyclic.insert fun other hother hreaches => ?_,
      keeps_insert (hacyclic.unbound_of_dereference hroot) term⟩
    simp [hacyclic.occurs_iff.mpr ⟨other, hother, hreaches⟩] at hoccurs

theorem Within.bind? {property : Term → Prop} {before after : Bindings}
    (hwithin : before.Within property) {name : Var} {term : Term}
    (hname : property (.var name)) (hterm : property term)
    (hafter : before.bind? name term = some after) : after.Within property := by
  rcases eq_or_of_bind? hafter with rfl | ⟨root, hroot, _, rfl⟩
  · exact hwithin
  · exact hwithin.insert (hroot ▸ hwithin.dereference hname) hterm

theorem Within.assign {property : Term → Prop} {before after : Bindings}
    (hwithin : before.Within property) {name : Var} {term : Term}
    (hname : property (.var name)) (hterm : property term)
    (hafter : before.assign name term = .ok after) : after.Within property := by
  rw [Bindings.assign] at hafter
  split at hafter
  · next extended hbind => exact Except.ok.inj hafter ▸ hwithin.bind? hname hterm hbind
  · cases hafter

end Bindings

end Horn
