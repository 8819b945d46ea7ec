/-
Chains of entries.  Without cycles a chain passes each entry at most once, so it
has been followed to its end after as many rounds as there are entries.  Binding
looks at the ends of two chains: it adds at most the one entry for the end of the
variable's chain, and none from which this variable could be reached again.
-/
import Horn.Proofs.Expansion

namespace Horn

namespace Bindings

/-- The second term is met some links behind the first.  A link leads from a
variable to the term it is bound to. -/
inductive Chain (bindings : Bindings) : Nat → Term → Term → Prop
  | nil (term : Term) : Chain bindings 0 term term
  | link {links : Nat} {name : Var} {next last : Term} (hget : bindings.get? name = some next)
      (hrest : Chain bindings links next last) : Chain bindings (links + 1) (.var name) last

/-- No link leads on: the term is no variable, or it has no entry. -/
def IsEnd (bindings : Bindings) (term : Term) : Prop :=
  term.isVar = false ∨ ∃ name, term = .var name ∧ bindings.get? name = none

theorem isEnd_of_unbound {bindings : Bindings} {name : Var}
    (hunbound : bindings.get? name = none) : bindings.IsEnd (.var name) :=
  .inr ⟨name, rfl, hunbound⟩

theorem IsEnd.followUpTo_eq {bindings : Bindings} {term : Term} (hend : bindings.IsEnd term)
    (rounds : Nat) : bindings.followUpTo rounds term = term := by
  rcases hend with hvalue | ⟨name, rfl, hunbound⟩
  · exact bindings.followUpTo_of_not_isVar rounds hvalue
  · cases rounds with
    | zero => rw [followUpTo]
    | succ rounds => rw [followUpTo, hunbound]

theorem Leads.exists_chain {bindings : Bindings} {name root : Var}
    (hleads : bindings.Leads name root) :
    ∃ links, bindings.Chain links (.var name) (.var root) := by
  induction hleads using Relation.ReflTransGen.head_induction_on with
  | refl => exact ⟨0, .nil _⟩
  | head hget _ ih =>
      obtain ⟨links, hchain⟩ := ih
      exact ⟨links + 1, .link hget hchain⟩

/-- Enough rounds follow a chain to its end. -/
theorem Chain.followUpTo_eq {bindings : Bindings} {links : Nat} {term last : Term}
    (hchain : bindings.Chain links term last) (hend : bindings.IsEnd last) {rounds : Nat}
    (hrounds : links ≤ rounds) : bindings.followUpTo rounds term = last := by
  induction hchain generalizing rounds with
  | nil => exact hend.followUpTo_eq rounds
  | link hget _ ih =>
      obtain ⟨rounds, rfl⟩ := Nat.exists_eq_add_one_of_ne_zero (by omega : rounds ≠ 0)
      rw [followUpTo, hget]
      exact ih hend (by omega)

/-- Each round follows a link, unless the chain has ended. -/
theorem exists_chain_followUpTo (bindings : Bindings) (rounds : Nat) (term : Term) :
    ∃ links, bindings.Chain links term (bindings.followUpTo rounds term) ∧
      (links = rounds ∨ bindings.IsEnd (bindings.followUpTo rounds term)) := by
  induction rounds generalizing term with
  | zero => exact ⟨0, .nil term, .inl rfl⟩
  | succ rounds ih =>
      cases term with
      | var name =>
          rw [followUpTo]
          cases hget : bindings.get? name with
          | none => exact ⟨0, .nil _, .inr (isEnd_of_unbound hget)⟩
          | some next =>
              obtain ⟨links, hchain, hlast⟩ := ih next
              exact ⟨links + 1, .link hget hchain, hlast.imp_left (congrArg (· + 1))⟩
      | _ => exact ⟨0, .nil _, .inr (.inl rfl)⟩

theorem rank_pos {bindings : Bindings} {name : Var} (hbound : bindings.get? name ≠ none) :
    0 < bindings.rank name :=
  Finset.card_pos.mpr ⟨name, mem_keysFrom.mpr ⟨hbound, Relation.ReflTransGen.refl⟩⟩

/-- Every variable on a chain has an entry of its own. -/
theorem Acyclic.links_le_rank {bindings : Bindings} (hacyclic : bindings.Acyclic) {links : Nat}
    {name : Var} {last : Term} (hchain : bindings.Chain links (.var name) last) :
    links ≤ bindings.rank name := by
  generalize hstart : Term.var name = start at hchain
  induction hchain generalizing name with
  | nil => exact Nat.zero_le _
  | @link links name next last hget hrest ih =>
      cases hstart
      cases hnext : next.isVar with
      | true =>
          obtain ⟨other, rfl⟩ := Term.exists_eq_var hnext
          have hrank := hacyclic.rank_lt (link_of_get? hget)
          have hlinks := ih rfl
          omega
      | false =>
          have hpos : 0 < bindings.rank name := rank_pos (by simp [hget])
          cases hrest with
          | nil => exact hpos
          | link => cases hnext

theorem Acyclic.links_le_size {bindings : Bindings} (hacyclic : bindings.Acyclic) {links : Nat}
    {term last : Term} (hchain : bindings.Chain links term last) : links ≤ bindings.size := by
  cases hchain with
  | nil => exact Nat.zero_le _
  | link hget hrest =>
      exact (hacyclic.links_le_rank (.link hget hrest)).trans (bindings.rank_le_size _)

theorem Acyclic.followUpTo_of_chain {bindings : Bindings} (hacyclic : bindings.Acyclic)
    {links : Nat} {term last : Term} (hchain : bindings.Chain links term last)
    (hend : bindings.IsEnd last) {rounds : Nat} (hrounds : bindings.size ≤ rounds) :
    bindings.followUpTo rounds term = last :=
  hchain.followUpTo_eq hend ((hacyclic.links_le_size hchain).trans hrounds)

/-- What passes the occurs check closes no cycle. -/
theorem Acyclic.insert_of_occurs {bindings : Bindings} (hacyclic : bindings.Acyclic) {root : Var}
    {term : Term} (hfree : bindings.occurs root term = false) :
    (bindings.insert root term).Acyclic := by
  refine hacyclic.insert fun name hname hreaches => ?_
  rw [hacyclic.occurs_iff.mpr ⟨name, hname, hreaches⟩] at hfree
  cases hfree

end Bindings

/-- Dereferencing ends where the chain ends, which has at most as many links as
there are entries.  That many rounds suffice, and more change nothing. -/
theorem dereference_reaches_chain_end {bindings : Bindings} (hacyclic : bindings.Acyclic)
    (term : Term) :
    bindings.IsEnd (bindings.dereference term) ∧
      (∃ links ≤ bindings.size, bindings.Chain links term (bindings.dereference term)) ∧
      (∀ links last, bindings.Chain links term last → bindings.IsEnd last →
        bindings.dereference term = last) ∧
      ∀ rounds, bindings.size ≤ rounds →
        bindings.followUpTo rounds term = bindings.dereference term := by
  obtain ⟨links, hchain, hlast⟩ := bindings.exists_chain_followUpTo (bindings.size + 1) term
  have hlinks := hacyclic.links_le_size hchain
  have hend : bindings.IsEnd (bindings.dereference term) := hlast.resolve_left (by omega)
  refine ⟨hend, ⟨links, hlinks, hchain⟩, fun _ last hother hotherEnd => ?_,
    fun rounds hrounds => ?_⟩
  · exact hacyclic.followUpTo_of_chain hother hotherEnd (Nat.le_succ _)
  · exact hacyclic.followUpTo_of_chain hchain hend hrounds

/-- A chain through all the entries there are.  One round less does not reach its
end. -/
theorem longest_chain_is_followed :
    let bindings := ((Bindings.empty.insert "C" (.fact "f" [.var "D"])).insert "B"
      (.var "C")).insert "A" (.var "B")
    bindings.Acyclic ∧ bindings.size = 3 ∧
      bindings.Chain 3 (.var "A") (.fact "f" [.var "D"]) ∧
      bindings.dereference (.var "A") = .fact "f" [.var "D"] ∧
      bindings.followUpTo 3 (.var "A") = bindings.dereference (.var "A") ∧
      bindings.followUpTo 2 (.var "A") = .var "C" := by
  intro bindings
  have hlast : (Bindings.empty.insert "C" (.fact "f" [.var "D"])).Acyclic :=
    Bindings.acyclic_single (by decide)
  have hrest : ((Bindings.empty.insert "C" (.fact "f" [.var "D"])).insert "B"
      (.var "C")).Acyclic := hlast.insert_of_occurs (by decide +kernel)
  have hacyclic : bindings.Acyclic := hrest.insert_of_occurs (by decide +kernel)
  have hsize : bindings.size = 3 := by decide +kernel
  have hfirst : bindings.get? "A" = some (.var "B") := rfl
  have hsecond : bindings.get? "B" = some (.var "C") := rfl
  have hthird : bindings.get? "C" = some (.fact "f" [.var "D"]) := rfl
  have hchain : bindings.Chain 3 (.var "A") (.fact "f" [.var "D"]) :=
    .link hfirst (.link hsecond (.link hthird (.nil _)))
  obtain ⟨_, _, hends, hrounds⟩ := dereference_reaches_chain_end hacyclic (.var "A")
  exact ⟨hacyclic, hsize, hchain, hends 3 _ hchain (.inl rfl), hrounds 3 hsize.le, rfl⟩

namespace Bindings

/-- A variable is reachable from a term, through the entries of variables and the
arguments of facts. -/
inductive Meets (bindings : Bindings) (target : Var) : Term → Prop
  | here : Meets bindings target (.var target)
  | entry {name : Var} {term : Term} (hget : bindings.get? name = some term)
      (hterm : Meets bindings target term) : Meets bindings target (.var name)
  | argument {functor : String} {args : List Term} {arg : Term} (harg : arg ∈ args)
      (hmeets : Meets bindings target arg) : Meets bindings target (.fact functor args)

theorem Meets.of_mem_occurrences {bindings : Bindings} {target name : Var} {term : Term}
    (hname : name ∈ term.occurrences) (hmeets : bindings.Meets target (.var name)) :
    bindings.Meets target term := by
  induction term with
  | var other =>
      rw [Term.mem_occurrences_var] at hname
      exact hname ▸ hmeets
  | fact functor args ih =>
      obtain ⟨arg, harg, hname⟩ := Term.mem_occurrences_fact.mp hname
      exact .argument harg (ih arg harg hname)
  | _ => cases hname

theorem meets_iff {bindings : Bindings} {target : Var} {term : Term} :
    bindings.Meets target term ↔ ∃ name ∈ term.occurrences, bindings.Reaches name target := by
  constructor
  · intro hmeets
    induction hmeets with
    | here => exact ⟨target, Term.mem_occurrences_var.mpr rfl, Relation.ReflTransGen.refl⟩
    | entry hget _ ih =>
        obtain ⟨next, hnext, hreaches⟩ := ih
        exact ⟨_, Term.mem_occurrences_var.mpr rfl, .head ⟨_, hget, hnext⟩ hreaches⟩
    | argument harg _ ih =>
        obtain ⟨name, hname, hreaches⟩ := ih
        exact ⟨name, Term.mem_occurrences_fact.mpr ⟨_, harg, hname⟩, hreaches⟩
  · rintro ⟨name, hname, hreaches⟩
    refine .of_mem_occurrences hname ?_
    clear hname
    induction hreaches using Relation.ReflTransGen.head_induction_on with
    | refl => exact .here
    | head hlink _ ih =>
        obtain ⟨value, hget, hnext⟩ := hlink
        exact .entry hget (.of_mem_occurrences hnext ih)

/-- The occurs check is a search through entries and arguments. -/
theorem Acyclic.occurs_iff_meets {bindings : Bindings} (hacyclic : bindings.Acyclic)
    {target : Var} {term : Term} :
    bindings.occurs target term = true ↔ bindings.Meets target term :=
  hacyclic.occurs_iff.trans meets_iff.symm

theorem Acyclic.dereference_of_leads {bindings : Bindings} (hacyclic : bindings.Acyclic)
    {name root : Var} (hleads : bindings.Leads name root) (hunbound : bindings.get? root = none) :
    bindings.dereference (.var name) = .var root := by
  obtain ⟨links, hchain⟩ := hleads.exists_chain
  exact hacyclic.followUpTo_of_chain hchain (isEnd_of_unbound hunbound) (Nat.le_succ _)

section Root

variable {bindings : Bindings} {name root : Var} {term : Term}

theorem bind?_of_same_root (hroot : bindings.dereference (.var name) = .var root)
    (hsame : bindings.dereference term = .var root) :
    bindings.bind? name term = some bindings := by
  rw [bind?, hroot, hsame]
  exact if_pos rfl

theorem bind?_of_other_end (hroot : bindings.dereference (.var name) = .var root)
    (hother : bindings.dereference term ≠ .var root) :
    bindings.bind? name term =
      if bindings.occurs root term then none else some (bindings.insert root term) := by
  rw [bind?, hroot]
  cases hend : bindings.dereference term with
  | var target =>
      have hne : target ≠ root := fun heq => hother (by rw [hend, heq])
      exact if_neg hne
  | _ => rfl

theorem insert_ne_of_unbound (hunbound : bindings.get? root = none) :
    bindings.insert root term ≠ bindings := by
  intro hsame
  have hget := bindings.get?_insert root root term
  rw [hsame, hunbound, if_pos rfl] at hget
  cases hget

end Root

end Bindings

/-- Binding a variable whose chain ends unbound succeeds without a change exactly
if the term's chain ends there too, and fails exactly if it does not and the end
is reachable from the term.  Else it adds one entry for that end.  No cycle is
ever closed. -/
theorem bind_adds_at_most_root {bindings : Bindings} (hacyclic : bindings.Acyclic)
    {name root : Var} (hleads : bindings.Leads name root) (hunbound : bindings.get? root = none)
    (term : Term) :
    (bindings.bind? name term = some bindings ↔ bindings.dereference term = .var root) ∧
      (bindings.bind? name term = none ↔
        bindings.dereference term ≠ .var root ∧ bindings.Meets root term) ∧
      (bindings.dereference term ≠ .var root → ¬ bindings.Meets root term →
        ∃ after, bindings.bind? name term = some after ∧
          ∀ other, after.get? other = if root = other then some term else bindings.get? other) ∧
      ∀ after, bindings.bind? name term = some after → after.Acyclic := by
  have hroot := hacyclic.dereference_of_leads hleads hunbound
  have hsame : bindings.dereference term = .var root → bindings.bind? name term = some bindings :=
    Bindings.bind?_of_same_root hroot
  have hother : bindings.dereference term ≠ .var root → bindings.bind? name term =
      if bindings.occurs root term then none else some (bindings.insert root term) :=
    Bindings.bind?_of_other_end hroot
  rw [← hacyclic.occurs_iff_meets]
  refine ⟨⟨fun hkept => ?_, hsame⟩, ⟨fun hfailed => ?_, fun ⟨hne, hmeets⟩ => ?_⟩,
    fun hne hfree => ?_, fun after hafter => (hacyclic.bind? hafter).1⟩
  · by_contra hne
    rw [hother hne] at hkept
    split at hkept
    · cases hkept
    · exact Bindings.insert_ne_of_unbound hunbound (Option.some.inj hkept)
  · have hne : bindings.dereference term ≠ .var root := fun heq => by
      rw [hsame heq] at hfailed
      cases hfailed
    rw [hother hne] at hfailed
    split at hfailed
    · next hoccurs => exact ⟨hne, hoccurs⟩
    · cases hfailed
  · rw [hother hne, if_pos hmeets]
  · exact ⟨_, (hother hne).trans (if_neg hfree),
      fun other => bindings.get?_insert root other term⟩

/-- With `Y` bound to `g(Z)` and `Z` to the unbound `X`, the variable `Z` takes `X`
without a change, refuses `f(Y)`, and takes `f(W)` as an entry for `X`. -/
theorem chain_end_takes_entry :
    let bindings := (Bindings.empty.insert "Z" (.var "X")).insert "Y" (.fact "g" [.var "Z"])
    bindings.Acyclic ∧ bindings.Leads "Z" "X" ∧ bindings.get? "X" = none ∧
      bindings.bind? "Z" (.var "X") = some bindings ∧
      bindings.bind? "Z" (.fact "f" [.var "Y"]) = none ∧
      ∃ after, bindings.bind? "Z" (.fact "f" [.var "W"]) = some after ∧ after.Acyclic ∧
        after.get? "X" = some (.fact "f" [.var "W"]) ∧ after.get? "Z" = some (.var "X") := by
  intro bindings
  have hlink : (Bindings.empty.insert "Z" (.var "X")).Acyclic :=
    Bindings.acyclic_single (by decide)
  have hacyclic : bindings.Acyclic := hlink.insert_of_occurs (by decide +kernel)
  have halias : bindings.get? "Z" = some (.var "X") := rfl
  have hleads : bindings.Leads "Z" "X" := .single halias
  have hunbound : bindings.get? "X" = none := rfl
  have hfree : ¬ bindings.Meets "X" (.fact "f" [.var "W"]) := by
    rw [← hacyclic.occurs_iff_meets]
    decide +kernel
  have hpair : bindings.get? "Y" = some (.fact "g" [.var "Z"]) := rfl
  have hmeets : bindings.Meets "X" (.fact "f" [.var "Y"]) :=
    .argument (List.mem_singleton.mpr rfl) (.entry hpair
      (.argument (List.mem_singleton.mpr rfl) (.entry halias .here)))
  obtain ⟨hkept, _, _, _⟩ := bind_adds_at_most_root hacyclic hleads hunbound (.var "X")
  obtain ⟨_, hrefused, _, _⟩ :=
    bind_adds_at_most_root hacyclic hleads hunbound (.fact "f" [.var "Y"])
  obtain ⟨_, _, hadded, hcloses⟩ :=
    bind_adds_at_most_root hacyclic hleads hunbound (.fact "f" [.var "W"])
  obtain ⟨after, hafter, hget⟩ := hadded nofun hfree
  exact ⟨hacyclic, hleads, hunbound, hkept.mpr rfl, hrefused.mpr ⟨nofun, hmeets⟩, after, hafter,
    hcloses after hafter, (hget "X").trans rfl, (hget "Z").trans halias⟩

end Horn
