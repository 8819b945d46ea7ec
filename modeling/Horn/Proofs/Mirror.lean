/-
Substitutions under other names.  Of two linked variables the one with the
smaller name points to the other, so that under other names links may point the
other way; what is kept is which chains end together, and in which terms.
-/
import Mathlib.Data.Option.Basic
import Mathlib.Logic.Equiv.PartialEquiv
import Horn.Proofs.Legible
import Horn.Proofs.Names

namespace Horn

theorem Term.isVar_rename (image : Var → Var) (term : Term) :
    (term.rename image).isVar = term.isVar := by
  cases term <;> rfl

/-- Names on two sides, one for one.  Those that may change have the form of names
on both sides, and all the others stay. -/
structure Naming (moved : Var → Prop) extends PartialEquiv Var Var where
  spelled : ∀ name, moved name → IsSpelled name
  moves : ∀ name ∈ source,
    moved name ∧ moved (toFun name) ∨ toFun name = name ∧ Inert moved name

namespace Naming

variable {moved : Var → Prop} {naming : Naming moved}

/-- The same names from the other side. -/
def symm (naming : Naming moved) : Naming moved where
  toPartialEquiv := naming.toPartialEquiv.symm
  spelled := naming.spelled
  moves name hname := by
    have hthere : naming.toFun (naming.invFun name) = name := naming.right_inv' hname
    rcases naming.moves _ (naming.map_target' hname) with ⟨hback, hmoved⟩ | ⟨hfixed, hinert⟩
    · exact Or.inl ⟨hthere ▸ hmoved, hback⟩
    · have hsame : name = naming.invFun name := hthere.symm.trans hfixed
      exact Or.inr ⟨hsame.symm, hsame.symm ▸ hinert⟩

/-- A term with names of this side, whose text tells them from all the rest. -/
def Covers (naming : Naming moved) (term : Term) : Prop :=
  term.Clear moved ∧ term.Over (· ∈ naming.source)

theorem stable_covers (naming : Naming moved) : Stable naming.Covers where
  arg functor args hfact arg harg :=
    ⟨hfact.1.of_mem arg harg, (stable_over _).arg functor args hfact.2 arg harg⟩
  subst hterm himage :=
    ⟨hterm.1.subst fun name hname => (himage name hname).1,
      (stable_over _).subst hterm.2 fun name hname => (himage name hname).2⟩

theorem covers_var {name : Var} (hname : name ∈ naming.source) : naming.Covers (.var name) :=
  ⟨.var name, Term.over_var hname⟩

theorem Covers.mem {name : Var} (hname : naming.Covers (.var name)) : name ∈ naming.source :=
  hname.2 name (by simp)

theorem Covers.moves {term : Term} (hterm : naming.Covers term) :
    ∀ name ∈ term.occurrences, Term.Moves moved naming.toFun name :=
  fun name hname => (naming.moves name (hterm.2 name hname)).imp_left And.left

theorem Covers.rename {term : Term} (hterm : naming.Covers term) :
    naming.symm.Covers (term.rename naming.toFun) := by
  refine ⟨hterm.1.subst fun name _ => .var _, fun name hname => ?_⟩
  obtain ⟨source, hsource, rfl⟩ := Term.mem_occurrences_rename.mp hname
  exact naming.map_source' (hterm.2 source hsource)

/-- There and back again. -/
theorem Covers.rename_rename {term : Term} (hterm : naming.Covers term) :
    (term.rename naming.toFun).rename naming.symm.toFun = term := by
  have hback : ∀ name ∈ term.occurrences, naming.symm.toFun (naming.toFun name) = name :=
    fun name hname => naming.left_inv' (hterm.2 name hname)
  exact (Term.rename_rename hback).trans (Term.rename_eq_self fun _ _ => rfl)

/-- Whether terms have the same text does not depend on the names in them. -/
theorem sameText_rename {left right : Term} (hleft : naming.Covers left)
    (hright : naming.Covers right) :
    (left.rename naming.toFun).sameText (right.rename naming.toFun) = left.sameText right := by
  have hrender : (left.rename naming.toFun).render = (right.rename naming.toFun).render ↔
      left.render = right.render := by
    constructor
    · intro heq
      have hback := hleft.rename.1.render_rename_eq naming.spelled hright.rename.1
        hleft.rename.moves hright.rename.moves heq
      rwa [hleft.rename_rename, hright.rename_rename] at hback
    · exact hleft.1.render_rename_eq naming.spelled hright.1 hleft.moves hright.moves
  simp only [Term.sameText, Term.kind_rename, hrender]

/-- The same names and further ones. -/
structure Extends (larger naming : Naming moved) : Prop where
  source : naming.source ⊆ larger.source
  agrees : ∀ name ∈ naming.source, larger.toFun name = naming.toFun name

variable {larger : Naming moved}

theorem Extends.refl (naming : Naming moved) : naming.Extends naming :=
  ⟨fun _ hname => hname, fun _ _ => rfl⟩

theorem Extends.trans {largest : Naming moved} (houter : largest.Extends larger)
    (hinner : larger.Extends naming) : largest.Extends naming where
  source _ hname := houter.source (hinner.source hname)
  agrees name hname := (houter.agrees name (hinner.source hname)).trans (hinner.agrees name hname)

theorem Extends.symm (hextends : larger.Extends naming) : larger.symm.Extends naming.symm := by
  have hback : ∀ name ∈ naming.target, naming.invFun name ∈ larger.source ∧
      larger.toFun (naming.invFun name) = name := by
    intro name hname
    have hsource := naming.map_target' hname
    exact ⟨hextends.source hsource,
      (hextends.agrees _ hsource).trans (naming.right_inv' hname)⟩
  constructor
  · intro name hname
    obtain ⟨hsource, hthere⟩ := hback name hname
    have htarget := larger.map_source' hsource
    exact (congrArg (· ∈ larger.target) hthere).mp htarget
  · intro name hname
    obtain ⟨hsource, hthere⟩ := hback name hname
    have hinverse := larger.left_inv' hsource
    exact (congrArg larger.invFun hthere).symm.trans hinverse

theorem Covers.extend {term : Term} (hterm : naming.Covers term)
    (hextends : larger.Extends naming) : larger.Covers term :=
  ⟨hterm.1, hterm.2.mono hextends.source⟩

end Naming

/-- All chains of one substitution that end in terms end in the same terms in the
other, and those that end together do so there. -/
structure Follows {moved : Var → Prop} (naming : Naming moved) (left right : Bindings) : Prop where
  acyclic : left.Acyclic
  within : left.Within naming.Covers
  bound : ∀ name ∈ naming.source, (left.dereference (.var name)).isVar = false →
    right.dereference (.var (naming.toFun name)) =
      (left.dereference (.var name)).rename naming.toFun
  linked : ∀ first ∈ naming.source, ∀ second ∈ naming.source,
    left.dereference (.var first) = left.dereference (.var second) →
      right.dereference (.var (naming.toFun first)) = right.dereference (.var (naming.toFun second))

/-- Two substitutions that are the same but for names and the directions of
links. -/
structure Mirrors {moved : Var → Prop} (naming : Naming moved) (left right : Bindings) : Prop where
  there : Follows naming left right
  back : Follows naming.symm right left

section Mirrors

variable {moved : Var → Prop} {naming : Naming moved} {left right : Bindings}

theorem Mirrors.symm (hmirrors : Mirrors naming left right) : Mirrors naming.symm right left :=
  ⟨hmirrors.back, hmirrors.there⟩

theorem follows_empty (naming : Naming moved) : Follows naming .empty .empty := by
  have hends : ∀ name, Bindings.empty.dereference (.var name) = .var name :=
    fun name => Bindings.dereference_of_unbound (Bindings.get?_empty name)
  refine ⟨Bindings.acyclic_empty, Bindings.within_empty _, fun name _ hend => ?_,
    fun first _ second _ hlinked => ?_⟩
  · simp [hends, Term.isVar] at hend
  · rw [hends, hends] at hlinked
    rw [Term.var.inj hlinked]

theorem mirrors_empty (naming : Naming moved) : Mirrors naming .empty .empty :=
  ⟨follows_empty naming, follows_empty naming.symm⟩

theorem Follows.dereference (hfollows : Follows naming left right) {term : Term}
    (hterm : naming.Covers term) (hend : (left.dereference term).isVar = false) :
    right.dereference (term.rename naming.toFun) =
      (left.dereference term).rename naming.toFun := by
  cases term with
  | var name => exact hfollows.bound name hterm.mem hend
  | _ =>
      rw [Bindings.dereference_of_not_isVar left rfl]
      exact Bindings.dereference_of_not_isVar right rfl

theorem Follows.end_covers (hfollows : Follows naming left right) {term : Term}
    (hterm : naming.Covers term) : naming.Covers (left.dereference term) :=
  hfollows.within.dereference hterm

/-- The solutions of one side are solutions of the other. -/
theorem Follows.satisfies (hfollows : Follows naming left right) {valuation : Valuation}
    (hsatisfies : valuation.Satisfies right) :
    Valuation.Satisfies (fun name => valuation (naming.toFun name)) left := by
  have hends : ∀ term : Term, naming.Covers term → (left.dereference term).isVar = false →
      (term.rename naming.toFun).eval valuation =
        ((left.dereference term).rename naming.toFun).eval valuation := by
    intro term hterm hend
    rw [← hsatisfies.eval_dereference, hfollows.dereference hterm hend]
  intro name term hget
  obtain ⟨hname, hterm⟩ := hfollows.within name term hget
  have hchain := hfollows.acyclic.dereference_of_get? hget
  rw [← Term.eval_rename]
  cases hend : (left.dereference (.var name)).isVar with
  | false =>
      have hleft := hends _ hname hend
      rw [hchain] at hend hleft
      exact hleft.trans (hends term hterm hend).symm
  | true =>
      cases term with
      | var next =>
          have hsame := hfollows.linked name hname.mem next hterm.mem hchain
          have hvalue := hsatisfies.eval_dereference (.var (naming.toFun name))
          rw [hsame, hsatisfies.eval_dereference] at hvalue
          exact hvalue.symm
      | _ =>
          rw [hchain, Bindings.dereference_of_not_isVar left rfl] at hend
          cases hend

/-- Further names are unbound on both sides. -/
theorem Follows.extend (hfollows : Follows naming left right) {larger : Naming moved}
    (hextends : larger.Extends naming) : Follows larger left right := by
  have hfree : ∀ name ∉ naming.source, left.dereference (.var name) = .var name := by
    intro name hname
    apply Bindings.dereference_of_unbound
    cases hget : left.get? name with
    | none => rfl
    | some term => exact absurd (hfollows.within name term hget).1.mem hname
  have happart : ∀ name ∈ naming.source, ∀ other ∉ naming.source,
      left.dereference (.var name) ≠ left.dereference (.var other) := by
    intro name hname other hother heq
    have hend := hfollows.end_covers (Naming.covers_var hname)
    rw [heq, hfree other hother] at hend
    exact hother hend.mem
  refine ⟨hfollows.acyclic, hfollows.within.imp fun _ hterm => hterm.extend hextends,
    fun name _ hend => ?_, fun first _ second _ hlinked => ?_⟩
  · by_cases hname : name ∈ naming.source
    · rw [hextends.agrees name hname, hfollows.bound name hname hend]
      exact Term.subst_congr fun other hother => congrArg Term.var
        (hextends.agrees other ((hfollows.end_covers (Naming.covers_var hname)).2 other
          hother)).symm
    · rw [hfree name hname] at hend
      cases hend
  · by_cases hfirst : first ∈ naming.source
    · by_cases hsecond : second ∈ naming.source
      · rw [hextends.agrees first hfirst, hextends.agrees second hsecond]
        exact hfollows.linked first hfirst second hsecond hlinked
      · exact absurd hlinked (happart first hfirst second hsecond)
    · by_cases hsecond : second ∈ naming.source
      · exact absurd hlinked.symm (happart second hsecond first hfirst)
      · rw [hfree first hfirst, hfree second hsecond] at hlinked
        rw [Term.var.inj hlinked]

theorem Mirrors.extend (hmirrors : Mirrors naming left right) {larger : Naming moved}
    (hextends : larger.Extends naming) : Mirrors larger left right :=
  ⟨hmirrors.there.extend hextends, hmirrors.back.extend hextends.symm⟩

theorem Mirrors.isVar_dereference (hmirrors : Mirrors naming left right) {term : Term}
    (hterm : naming.Covers term) :
    (right.dereference (term.rename naming.toFun)).isVar = (left.dereference term).isVar := by
  cases hleft : (left.dereference term).isVar with
  | false => rw [hmirrors.there.dereference hterm hleft, Term.isVar_rename, hleft]
  | true =>
      cases hright : (right.dereference (term.rename naming.toFun)).isVar with
      | true => rfl
      | false =>
          have hback := hmirrors.back.dereference hterm.rename hright
          rw [hterm.rename_rename] at hback
          rw [hback, Term.isVar_rename, hright] at hleft
          cases hleft

theorem Mirrors.linked_iff (hmirrors : Mirrors naming left right) {first second : Var}
    (hfirst : first ∈ naming.source) (hsecond : second ∈ naming.source) :
    right.dereference (.var (naming.toFun first)) = right.dereference (.var (naming.toFun second)) ↔
      left.dereference (.var first) = left.dereference (.var second) := by
  constructor
  · intro hlinked
    have hback := hmirrors.back.linked _ (naming.map_source' hfirst) _
      (naming.map_source' hsecond) hlinked
    have hname : ∀ name ∈ naming.source, naming.symm.toFun (naming.toFun name) = name :=
      fun name hname => naming.left_inv' hname
    rwa [hname first hfirst, hname second hsecond] at hback
  · exact hmirrors.there.linked first hfirst second hsecond

theorem ground_rename_of_values {image : Var → Var} {term : Term}
    (hvalues : ∀ name ∈ term.occurrences,
      right.value (image name) = (left.value name).rename image) :
    right.ground (term.rename image) = (left.ground term).rename image := by
  rw [Bindings.ground, Bindings.ground, Term.rename, Term.rename, Term.subst_subst,
    Term.subst_subst]
  exact Term.subst_congr hvalues

/-- The complete values are the same under the other names. -/
theorem Mirrors.value (hmirrors : Mirrors naming left right) {name : Var}
    (hname : name ∈ naming.source) :
    right.value (naming.toFun name) = (left.value name).rename naming.toFun := by
  induction hrank : left.rank name using Nat.strong_induction_on generalizing name with
  | _ rank ih =>
      have hcovers := Naming.covers_var hname
      have hsame : (right.dereference (.var (naming.toFun name))).isVar =
          (left.dereference (.var name)).isVar := hmirrors.isVar_dereference hcovers
      rw [hmirrors.there.acyclic.value_eq, hmirrors.back.acyclic.value_eq, hsame]
      cases hend : (left.dereference (.var name)).isVar with
      | true => rfl
      | false =>
          simp only [Bool.false_eq_true, if_false]
          rw [hmirrors.there.bound name hname hend]
          refine ground_rename_of_values fun other hother => ?_
          have hlower := hmirrors.there.acyclic.rank_lt_of_mem_dereference hend hother
          exact ih _ (hrank ▸ hlower) ((hmirrors.there.end_covers hcovers).2 other hother) rfl

theorem Mirrors.ground (hmirrors : Mirrors naming left right) {term : Term}
    (hterm : naming.Covers term) :
    right.ground (term.rename naming.toFun) = (left.ground term).rename naming.toFun :=
  ground_rename_of_values fun name hname => hmirrors.value (hterm.2 name hname)

end Mirrors

/-- The chains that ended in some variables end in one term now, and the others
where they did. -/
structure Redirects (before after : Bindings) (roots : Set Var) (last : Term) : Prop where
  acyclic : after.Acyclic
  led : ∀ name, ∀ root ∈ roots, before.dereference (.var name) = .var root →
    after.dereference (.var name) = last
  kept : ∀ name, (∀ root ∈ roots, before.dereference (.var name) ≠ .var root) →
    after.dereference (.var name) = before.dereference (.var name)
  closed : ∀ root, last = .var root → root ∈ roots

namespace Bindings

variable {before : Bindings}

theorem Acyclic.redirects_insert (hacyclic : before.Acyclic) {root : Var} {term : Term}
    (hroot : before.get? root = none) (hterm : term.isVar = false)
    (hinserted : (before.insert root term).Acyclic) :
    Redirects before (before.insert root term) {root} term where
  acyclic := hinserted
  led name _ hsame hend := by
    rw [Set.mem_singleton_iff.mp hsame] at hend
    rw [(hacyclic.dereference_insert hroot hinserted name).1 hend, dereference_of_not_isVar _ hterm]
  kept name hother := (hacyclic.dereference_insert hroot hinserted name).2 (hother root rfl)
  closed other hother := by
    rw [hother] at hterm
    cases hterm

/-- Two unbound variables can always be linked. -/
theorem Acyclic.exists_link (hacyclic : before.Acyclic) {first second : Var}
    (hfirst : before.get? first = none) (hsecond : before.get? second = none)
    (hne : first ≠ second) :
    ∃ after, before.assign first (.var second) = .ok after ∧
      Redirects before after {first, second} (.var second) := by
  have hend := dereference_of_unbound hsecond
  have hsafe : ∀ other ∈ (Term.var second).occurrences, ¬ before.Reaches other first := by
    intro other hother hreaches
    rw [Term.mem_occurrences_var.mp hother] at hreaches
    exact hne (eq_of_reaches_of_unbound hsecond hreaches)
  have hoccurs : before.occurs first (.var second) = false := by
    rw [← Bool.not_eq_true, hacyclic.occurs_iff]
    rintro ⟨other, hother, hreaches⟩
    exact hsafe other hother hreaches
  have hinserted : (before.insert first (.var second)).Acyclic := hacyclic.insert hsafe
  have hlast : (before.insert first (.var second)).dereference (.var second) = .var second := by
    apply dereference_of_unbound
    rw [get?_insert, if_neg hne, hsecond]
  refine ⟨before.insert first (.var second), ?_, hinserted, fun name root hroot hname => ?_,
    fun name hother => ?_, fun root hroot => ?_⟩
  · rw [assign, bind?_of_unbound hfirst hend fun heq => hne (Term.var.inj heq).symm, hoccurs]
    rfl
  · obtain ⟨hled, hleft⟩ := hacyclic.dereference_insert hfirst hinserted name
    rcases hroot with rfl | rfl
    · rw [hled hname, hlast]
    · rw [hleft (by rw [hname]; exact fun heq => hne (Term.var.inj heq).symm), hname]
  · exact (hacyclic.dereference_insert hfirst hinserted name).2 (hother first (Or.inl rfl))
  · exact Or.inr (Term.var.inj hroot).symm

end Bindings

section Redirects

variable {moved : Var → Prop} {naming : Naming moved} {left right left' right' : Bindings}
  {roots roots' : Set Var} {last last' : Term}

/-- Leading the same chains on to the same term keeps two sides alike. -/
theorem Follows.redirect (hfollows : Follows naming left right)
    (hleft : Redirects left left' roots last) (hright : Redirects right right' roots' last')
    (hwithin : left'.Within naming.Covers)
    (hroots : ∀ name ∈ naming.source,
      (∃ root ∈ roots, left.dereference (.var name) = .var root) ↔
        ∃ root ∈ roots', right.dereference (.var (naming.toFun name)) = .var root)
    (hlast : last.isVar = false → last' = last.rename naming.toFun) :
    Follows naming left' right' := by
  have hends : ∀ name ∈ naming.source,
      (left'.dereference (.var name) = last ∧
        right'.dereference (.var (naming.toFun name)) = last') ∨
      (left'.dereference (.var name) = left.dereference (.var name) ∧
        right'.dereference (.var (naming.toFun name)) =
          right.dereference (.var (naming.toFun name)) ∧
        (left.dereference (.var name) = last → last.isVar = false)) := by
    intro name hname
    by_cases hled : ∃ root ∈ roots, left.dereference (.var name) = .var root
    · obtain ⟨root', hroot', hend'⟩ := (hroots name hname).mp hled
      obtain ⟨root, hroot, hend⟩ := hled
      exact Or.inl ⟨hleft.led name root hroot hend, hright.led _ root' hroot' hend'⟩
    · refine Or.inr ⟨hleft.kept name fun root hroot hend => hled ⟨root, hroot, hend⟩,
        hright.kept _ fun root hroot hend => hled ((hroots name hname).mpr ⟨root, hroot, hend⟩),
        fun heq => ?_⟩
      cases hterm : last with
      | var root => exact absurd ⟨root, hleft.closed root hterm, heq.trans hterm⟩ hled
      | _ => rfl
  refine ⟨hleft.acyclic, hwithin, fun name hname hend => ?_,
    fun first hfirst second hsecond hlinked => ?_⟩
  · rcases hends name hname with ⟨hsame, hsame'⟩ | ⟨hsame, hsame', _⟩
    · rw [hsame] at hend ⊢
      rw [hsame', hlast hend]
    · rw [hsame] at hend ⊢
      rw [hsame', hfollows.bound name hname hend]
  · -- A chain that is left as it was may end where others are led to, in a term.
    have hmixed : ∀ name ∈ naming.source, left.dereference (.var name) = last →
        last.isVar = false → right.dereference (.var (naming.toFun name)) = last' := by
      intro name hname heq hterm
      rw [hfollows.bound name hname (heq ▸ hterm), heq, hlast hterm]
    rcases hends first hfirst with ⟨hsame, hsame'⟩ | ⟨hsame, hsame', hterm⟩ <;>
      rcases hends second hsecond with ⟨hother, hother'⟩ | ⟨hother, hother', hterm'⟩ <;>
      rw [hsame, hother] at hlinked <;> rw [hsame', hother']
    · exact (hmixed second hsecond hlinked.symm (hterm' hlinked.symm)).symm
    · exact hmixed first hfirst hlinked (hterm hlinked)
    · exact hfollows.linked first hfirst second hsecond hlinked

theorem Mirrors.redirect (hmirrors : Mirrors naming left right)
    (hleft : Redirects left left' roots last) (hright : Redirects right right' roots' last')
    (hwithin : left'.Within naming.Covers) (hwithin' : right'.Within naming.symm.Covers)
    (hroots : ∀ name ∈ naming.source,
      (∃ root ∈ roots, left.dereference (.var name) = .var root) ↔
        ∃ root ∈ roots', right.dereference (.var (naming.toFun name)) = .var root)
    (hlast : last.isVar = false → last' = last.rename naming.toFun)
    (hlast' : last'.isVar = false → last = last'.rename naming.symm.toFun) :
    Mirrors naming left' right' := by
  refine ⟨hmirrors.there.redirect hleft hright hwithin hroots hlast,
    hmirrors.back.redirect hright hleft hwithin' (fun name hname => ?_) hlast'⟩
  have hthere : naming.toFun (naming.symm.toFun name) = name := naming.right_inv' hname
  have hsame := hroots (naming.symm.toFun name) (naming.map_target' hname)
  rw [hthere] at hsame
  exact hsame.symm

end Redirects

end Horn
