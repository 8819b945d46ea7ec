/-
Binding and unification under other names.  What succeeds on one side succeeds
on the other, since solutions carry over; and the results are alike again.
-/
import Horn.Proofs.Mirror

namespace Horn

section Binding

variable {moved : Var → Prop} {naming : Naming moved} {left right : Bindings}

/-- Results are alike, or missing on both sides, if either side follows what the
other finds. -/
theorem rel_of_found {result result' : Option Bindings}
    (hthere : ∀ found, result = some found → ∃ found', result' = some found' ∧
      Mirrors naming found found')
    (hback : ∀ found', result' = some found' → ∃ found, result = some found) :
    Option.Rel (Mirrors naming) result result' := by
  cases result with
  | some found =>
      obtain ⟨found', rfl, hmirrors⟩ := hthere found rfl
      exact .some hmirrors
  | none =>
      cases result' with
      | none => exact .none
      | some found' =>
          obtain ⟨found, hfound⟩ := hback found' rfl
          cases hfound

/-- A solution of one side is one of the other, and gives renamed terms the same
trees. -/
theorem Mirrors.exists_solution (hmirrors : Mirrors naming left right) {valuation : Valuation}
    (hsatisfies : valuation.Satisfies left) :
    ∃ valuation' : Valuation, valuation'.Satisfies right ∧ ∀ term, naming.Covers term →
      (term.rename naming.toFun).eval valuation' = term.eval valuation := by
  refine ⟨fun name => valuation (naming.symm.toFun name), hmirrors.back.satisfies hsatisfies,
    fun term hterm => ?_⟩
  rw [Term.eval_rename, Term.eval_eq_iff]
  exact fun name hname => congrArg valuation (naming.left_inv' (hterm.2 name hname))

/-- A value that a variable takes on one side it takes on the other. -/
theorem Mirrors.bind?_forward (hmirrors : Mirrors naming left right) {name : Var} {term : Term}
    (hname : name ∈ naming.source) (hterm : naming.Covers term) (hvalue : term.isVar = false)
    {found : Bindings} (hfound : left.bind? name term = some found) :
    ∃ found', right.bind? (naming.toFun name) (term.rename naming.toFun) = some found' ∧
      Mirrors naming found found' := by
  have hcovers := Naming.covers_var hname
  have hvalue' : (term.rename naming.toFun).isVar = false := by rw [Term.isVar_rename, hvalue]
  have hsame : (right.dereference (.var (naming.toFun name))).isVar =
      (left.dereference (.var name)).isVar := hmirrors.isVar_dereference hcovers
  obtain ⟨hacyclic', _⟩ := hmirrors.there.acyclic.bind? hfound
  have hwithin' := hmirrors.there.within.bind? hcovers hterm hfound
  cases hend : (left.dereference (.var name)).isVar with
  | false =>
      rw [hend] at hsame
      rw [Bindings.bind?_of_bound hend] at hfound
      rw [Bindings.bind?_of_bound hsame, hmirrors.there.bound name hname hend,
        hmirrors.ground (hmirrors.there.end_covers hcovers), hmirrors.ground hterm,
        Naming.sameText_rename
          (hmirrors.there.within.ground (Naming.stable_covers naming)
            (hmirrors.there.end_covers hcovers))
          (hmirrors.there.within.ground (Naming.stable_covers naming) hterm)]
      split at hfound
      · next htext => exact ⟨right, if_pos htext, Option.some.inj hfound ▸ hmirrors⟩
      · cases hfound
  | true =>
      rw [hend] at hsame
      obtain ⟨root, hroot⟩ := Term.exists_eq_var hend
      obtain ⟨root', hroot'⟩ := Term.exists_eq_var hsame
      have hunbound := hmirrors.there.acyclic.unbound_of_dereference hroot
      obtain rfl : found = left.insert root term := by
        rw [Bindings.bind?_of_root hmirrors.there.acyclic hroot hvalue] at hfound
        split at hfound
        · cases hfound
        · exact (Option.some.inj hfound).symm
      -- a solution of what was found shows that the other side can take the value too
      obtain ⟨valuation, hsatisfies, _⟩ := hacyclic'.exists_satisfies fun _ => .text ""
      obtain ⟨hbefore, hequal⟩ :=
        (Bindings.satisfies_insert_iff hunbound term valuation).mp hsatisfies
      obtain ⟨valuation', hsatisfies', hsolved⟩ := hmirrors.exists_solution hbefore
      have hchain := hbefore.eval_dereference (.var name)
      rw [hroot, Term.eval, hequal, ← hsolved term hterm, ← hsolved _ hcovers] at hchain
      obtain ⟨hbind, hinserted, _⟩ := Bindings.bind?_of_solved hmirrors.back.acyclic hroot' hvalue'
        hsatisfies' hchain.symm
      refine ⟨_, hbind, hmirrors.redirect
        (hmirrors.there.acyclic.redirects_insert hunbound hvalue hacyclic')
        (hmirrors.back.acyclic.redirects_insert
          (hmirrors.back.acyclic.unbound_of_dereference hroot') hvalue' hinserted)
        hwithin' (hmirrors.back.within.bind? hcovers.rename hterm.rename hbind) ?_
        (fun _ => rfl) fun _ => hterm.rename_rename.symm⟩
      intro other hother
      have hlinked := hmirrors.linked_iff hother hname
      rw [hroot, hroot'] at hlinked
      simpa using hlinked.symm

theorem Mirrors.bind? (hmirrors : Mirrors naming left right) {name : Var} {term : Term}
    (hname : name ∈ naming.source) (hterm : naming.Covers term) (hvalue : term.isVar = false) :
    Option.Rel (Mirrors naming) (left.bind? name term)
      (right.bind? (naming.toFun name) (term.rename naming.toFun)) := by
  refine rel_of_found (fun found => hmirrors.bind?_forward hname hterm hvalue)
    fun found' hfound => ?_
  have hvalue' : (term.rename naming.toFun).isVar = false := by rw [Term.isVar_rename, hvalue]
  obtain ⟨found, hback, _⟩ :=
    hmirrors.symm.bind?_forward (naming.map_source' hname) hterm.rename hvalue' hfound
  have hthere : naming.symm.toFun (naming.toFun name) = name := naming.left_inv' hname
  rw [hterm.rename_rename, hthere] at hback
  exact ⟨found, hback⟩

/-- As a step of unification, with the end of the variable's chain in its place. -/
theorem Mirrors.assign_end (hmirrors : Mirrors naming left right) {name root root' : Var}
    {term : Term} (hname : name ∈ naming.source) (hterm : naming.Covers term)
    (hvalue : term.isVar = false) (hroot : left.dereference (.var name) = .var root)
    (hroot' : right.dereference (.var (naming.toFun name)) = .var root') :
    Option.Rel (Mirrors naming) (left.assign root term).toOption
      (right.assign root' (term.rename naming.toFun)).toOption := by
  have hbind := hmirrors.bind? hname hterm hvalue
  rw [Bindings.bind?_of_dereference hmirrors.there.acyclic hroot,
    Bindings.bind?_of_dereference hmirrors.back.acyclic hroot'] at hbind
  rwa [Bindings.toOption_assign, Bindings.toOption_assign]

/-- Of two unbound variables one is bound to the other, whichever that is. -/
theorem exists_join {before : Bindings} (hacyclic : before.Acyclic) {first second : Var}
    (hfirst : before.get? first = none) (hsecond : before.get? second = none)
    (hne : first ≠ second) :
    ∃ after root, (if first < second then before.assign first (.var second)
        else before.assign second (.var first)) = .ok after ∧
      Redirects before after {first, second} (.var root) := by
  split
  · obtain ⟨after, hafter, hredirects⟩ := hacyclic.exists_link hfirst hsecond hne
    exact ⟨after, second, hafter, hredirects⟩
  · obtain ⟨after, hafter, hredirects⟩ := hacyclic.exists_link hsecond hfirst hne.symm
    exact ⟨after, first, hafter, Set.pair_comm second first ▸ hredirects⟩

/-- Linking two variables gives the same classes of linked variables, in whichever
directions the links point. -/
theorem Mirrors.unifyUpTo_vars (hmirrors : Mirrors naming left right) (fuel : Nat)
    {name other : Var} (hname : name ∈ naming.source) (hother : other ∈ naming.source)
    (hfree : (left.dereference (.var name)).isVar = true)
    (hfree' : (left.dereference (.var other)).isVar = true) :
    Option.Rel (Mirrors naming) (unifyUpTo (fuel + 1) (.var name) (.var other) left).toOption
      (unifyUpTo (fuel + 1) (.var (naming.toFun name)) (.var (naming.toFun other))
        right).toOption := by
  have hmoved : (right.dereference (.var (naming.toFun name))).isVar = true :=
    (hmirrors.isVar_dereference (Naming.covers_var hname)).trans hfree
  have hmoved' : (right.dereference (.var (naming.toFun other))).isVar = true :=
    (hmirrors.isVar_dereference (Naming.covers_var hother)).trans hfree'
  obtain ⟨first, hfirst⟩ := Term.exists_eq_var hfree
  obtain ⟨second, hsecond⟩ := Term.exists_eq_var hfree'
  obtain ⟨first', hfirst'⟩ := Term.exists_eq_var hmoved
  obtain ⟨second', hsecond'⟩ := Term.exists_eq_var hmoved'
  have hlinked : first' = second' ↔ first = second := by
    have hiff := hmirrors.linked_iff hname hother
    rwa [hfirst, hsecond, hfirst', hsecond', Term.var.injEq, Term.var.injEq] at hiff
  by_cases hsame : first = second
  · rw [Horn.unifyUpTo_vars fuel hfirst hsecond, Horn.unifyUpTo_vars fuel hfirst' hsecond',
      if_pos hsame, if_pos (hlinked.mpr hsame)]
    exact .some hmirrors
  -- renaming may turn the order of two names about, so the two links may point apart
  · have hdiffer : first' ≠ second' := fun heq => hsame (hlinked.mp heq)
    obtain ⟨after, root, hafter, hredirects⟩ := exists_join hmirrors.there.acyclic
      (hmirrors.there.acyclic.unbound_of_dereference hfirst)
      (hmirrors.there.acyclic.unbound_of_dereference hsecond) hsame
    obtain ⟨after', root', hafter', hredirects'⟩ := exists_join hmirrors.back.acyclic
      (hmirrors.back.acyclic.unbound_of_dereference hfirst')
      (hmirrors.back.acyclic.unbound_of_dereference hsecond') hdiffer
    have hunified : unifyUpTo (fuel + 1) (.var name) (.var other) left = .ok after := by
      rw [Horn.unifyUpTo_vars fuel hfirst hsecond, if_neg hsame, hafter]
    have hunified' : unifyUpTo (fuel + 1) (.var (naming.toFun name)) (.var (naming.toFun other))
        right = .ok after' := by
      rw [Horn.unifyUpTo_vars fuel hfirst' hsecond', if_neg hdiffer, hafter']
    have hcovers := Naming.covers_var hname
    have hcovers' := Naming.covers_var hother
    rw [hunified, hunified']
    refine .some (hmirrors.redirect hredirects hredirects'
      (unifyUpTo_within (Naming.stable_covers naming).arg hcovers hcovers' hmirrors.there.within
        hunified)
      (unifyUpTo_within (Naming.stable_covers naming.symm).arg hcovers.rename hcovers'.rename
        hmirrors.back.within hunified') (fun inner hinner => ?_)
      (fun hvalue => (by cases hvalue)) fun hvalue => (by cases hvalue))
    have htoFirst := hmirrors.linked_iff hinner hname
    have htoSecond := hmirrors.linked_iff hinner hother
    rw [hfirst, hfirst'] at htoFirst
    rw [hsecond, hsecond'] at htoSecond
    simp only [Set.mem_insert_iff, Set.mem_singleton_iff, exists_eq_or_imp, exists_eq_left,
      htoFirst, htoSecond]

end Binding

section Unification

variable {moved : Var → Prop} {naming : Naming moved} {left right : Bindings}

theorem Mirrors.threadArgs {combine : Term → Term → Bindings → Except Mismatch Bindings}
    {args args' : List Term}
    (hcombine : ∀ arg ∈ args, ∀ arg' ∈ args', ∀ before before', Mirrors naming before before' →
      Option.Rel (Mirrors naming) (combine arg arg' before).toOption
        (combine (arg.rename naming.toFun) (arg'.rename naming.toFun) before').toOption)
    (hmirrors : Mirrors naming left right) :
    Option.Rel (Mirrors naming) (Horn.threadArgs combine args args' left).toOption
      (Horn.threadArgs combine (args.map (Term.rename naming.toFun))
        (args'.map (Term.rename naming.toFun)) right).toOption := by
  induction args generalizing args' left right with
  | nil => cases args' <;> exact .some hmirrors
  | cons arg args ih =>
      cases args' with
      | nil => exact .some hmirrors
      | cons arg' args' =>
          have hhead := hcombine arg List.mem_cons_self arg' List.mem_cons_self left right hmirrors
          have htail : ∀ inner ∈ args, ∀ inner' ∈ args', ∀ before before',
              Mirrors naming before before' →
              Option.Rel (Mirrors naming) (combine inner inner' before).toOption
                (combine (inner.rename naming.toFun) (inner'.rename naming.toFun)
                  before').toOption :=
            fun inner hinner inner' hinner' =>
              hcombine inner (List.mem_cons_of_mem _ hinner) inner' (List.mem_cons_of_mem _ hinner')
          simp only [List.map_cons, Horn.threadArgs, bind, Except.bind]
          cases hresult : combine arg arg' left <;>
            cases hresult' : combine (arg.rename naming.toFun) (arg'.rename naming.toFun) right <;>
            rw [hresult, hresult'] at hhead <;> cases hhead
          · exact .none
          · next hbetween => exact ih htail hbetween

theorem Mirrors.of_check (hmirrors : Mirrors naming left right) (check : Prop) [Decidable check] :
    Option.Rel (Mirrors naming)
      (if check then Except.ok left else .error Mismatch.clash).toOption
      (if check then Except.ok right else .error Mismatch.clash).toOption := by
  split
  · exact .some hmirrors
  · exact .none

/-- To the same depth, unification gives alike results. -/
theorem Mirrors.unifyUpTo (hmirrors : Mirrors naming left right) (fuel : Nat)
    {first second : Term} (hfirst : naming.Covers first) (hsecond : naming.Covers second) :
    Option.Rel (Mirrors naming) (unifyUpTo fuel first second left).toOption
      (unifyUpTo fuel (first.rename naming.toFun) (second.rename naming.toFun) right).toOption := by
  induction fuel generalizing first second left right with
  | zero => exact .none
  | succ fuel ih =>
      have hends := hmirrors.isVar_dereference hfirst
      have hends' := hmirrors.isVar_dereference hsecond
      cases hfree : (left.dereference first).isVar with
      | true =>
          rw [hfree] at hends
          obtain ⟨name, rfl⟩ := Bindings.exists_eq_var_of_dereference hfree
          obtain ⟨root, hroot⟩ := Term.exists_eq_var hfree
          obtain ⟨root', hroot'⟩ := Term.exists_eq_var hends
          cases hfree' : (left.dereference second).isVar with
          | true =>
              obtain ⟨other, rfl⟩ := Bindings.exists_eq_var_of_dereference hfree'
              exact hmirrors.unifyUpTo_vars fuel hfirst.mem hsecond.mem hfree hfree'
          | false =>
              rw [hfree'] at hends'
              rw [unifyUpTo_var_left fuel hroot hfree', unifyUpTo_var_left fuel hroot' hends',
                hmirrors.there.dereference hsecond hfree']
              exact hmirrors.assign_end hfirst.mem (hmirrors.there.end_covers hsecond) hfree' hroot
                hroot'
      | false =>
          rw [hfree] at hends
          have hfirstEnd := hmirrors.there.dereference hfirst hfree
          cases hfree' : (left.dereference second).isVar with
          | true =>
              rw [hfree'] at hends'
              obtain ⟨name, rfl⟩ := Bindings.exists_eq_var_of_dereference hfree'
              obtain ⟨root, hroot⟩ := Term.exists_eq_var hfree'
              obtain ⟨root', hroot'⟩ := Term.exists_eq_var hends'
              rw [unifyUpTo_var_right fuel hfree hroot, unifyUpTo_var_right fuel hends hroot',
                hfirstEnd]
              exact hmirrors.assign_end hsecond.mem (hmirrors.there.end_covers hfirst) hfree hroot
                hroot'
          | false =>
              have hsecondEnd := hmirrors.there.dereference hsecond hfree'
              have hargs := hmirrors.there.end_covers hfirst
              have hargs' := hmirrors.there.end_covers hsecond
              have hbound := Term.ne_var_of_not_isVar hfree
              have hbound' := Term.ne_var_of_not_isVar hfree'
              rw [Horn.unifyUpTo, Horn.unifyUpTo, hfirstEnd, hsecondEnd]
              cases hl : left.dereference first <;> cases hr : left.dereference second
              case fact.fact functor args functor' args' =>
                rw [hl] at hargs
                rw [hr] at hargs'
                have hclosed := (Naming.stable_covers naming).arg
                simp only [Term.rename, Term.subst, Term.substAll_eq_map, List.length_map]
                split
                · exact hmirrors.threadArgs fun arg harg arg' harg' _ _ hbefore => ih hbefore
                    (hclosed functor args hargs arg harg) (hclosed functor' args' hargs' arg' harg')
                · exact .none
              -- The rest are comparisons of texts and numbers.
              all_goals first
                | exact hmirrors.of_check _
                | exact .none
                | exact absurd hl (hbound _)
                | exact absurd hr (hbound' _)

/-- However deep the terms go, on either side. -/
theorem Mirrors.unify (hmirrors : Mirrors naming left right) {first second : Term}
    (hfirst : naming.Covers first) (hsecond : naming.Covers second) :
    Option.Rel (Mirrors naming) (unify first second left)
      (unify (first.rename naming.toFun) (second.rename naming.toFun) right) := by
  rw [unify_eq_toOption hmirrors.there.acyclic _ _ (Nat.le_max_left _ _),
    unify_eq_toOption hmirrors.back.acyclic _ _ (Nat.le_max_right _ _)]
  exact hmirrors.unifyUpTo _ hfirst hsecond

/-- The functors of goals and heads are not compared as texts. -/
theorem Mirrors.unifyFacts (hmirrors : Mirrors naming left right) {first second : Fact}
    (hfirst : ∀ arg ∈ first.args, naming.Covers arg)
    (hsecond : ∀ arg ∈ second.args, naming.Covers arg) :
    Option.Rel (Mirrors naming) (unifyFacts first second left)
      (unifyFacts (first.rename naming.toFun) (second.rename naming.toFun) right) := by
  obtain ⟨fuel, hleft, hright⟩ : ∃ fuel,
      Horn.unifyFacts first second left =
        (Horn.unifyUpTo (fuel + 1) first.toTerm second.toTerm left).toOption ∧
      Horn.unifyFacts (first.rename naming.toFun) (second.rename naming.toFun) right =
        (Horn.unifyUpTo (fuel + 1) (first.rename naming.toFun).toTerm
          (second.rename naming.toFun).toTerm right).toOption := by
    refine ⟨max _ _, unify_eq_toOption hmirrors.there.acyclic _ _
      (Nat.le_succ_of_le (Nat.le_max_left _ _)), unify_eq_toOption hmirrors.back.acyclic _ _
      (Nat.le_succ_of_le (Nat.le_max_right _ _))⟩
  have hend : ∀ (bindings : Bindings) (fact : Fact), bindings.dereference fact.toTerm =
      .fact fact.functor fact.args := fun bindings _ => bindings.dereference_of_not_isVar rfl
  rw [hleft, hright, unifyUpTo_facts fuel (hend _ _) (hend _ _),
    unifyUpTo_facts fuel (hend _ _) (hend _ _)]
  simp only [Fact.args_rename, Fact.functor_rename, List.length_map]
  split
  · exact hmirrors.threadArgs fun arg harg arg' harg' _ _ hbefore =>
      hbefore.unifyUpTo fuel (hfirst arg harg) (hsecond arg' harg')
  · exact .none

end Unification

section Arithmetic

variable {moved : Var → Prop} {naming : Naming moved} {left right : Bindings}

theorem toOption_bind {first : Except ArithmeticError Float}
    {next : Float → Except ArithmeticError Float} :
    (first >>= next).toOption = first.toOption.bind fun value => (next value).toOption := by
  cases first <;> rfl

theorem Mirrors.number (hmirrors : Mirrors naming left right) {name : Var}
    (hname : name ∈ naming.source) :
    (right.number (naming.toFun name)).toOption = (left.number name).toOption := by
  have hcovers := Naming.covers_var hname
  have hsame := hmirrors.isVar_dereference hcovers
  change (right.dereference (.var (naming.toFun name))).isVar = _ at hsame
  rw [Bindings.number, Bindings.number]
  cases hend : (left.dereference (.var name)).isVar with
  | true =>
      rw [hend] at hsame
      obtain ⟨root, hroot⟩ := Term.exists_eq_var hend
      obtain ⟨root', hroot'⟩ := Term.exists_eq_var hsame
      rw [hroot, hroot']
      rfl
  | false =>
      rw [hmirrors.there.bound name hname hend]
      cases left.dereference (.var name) <;> rfl

mutual

/-- Expressions have the same values, or none on both sides. -/
theorem Factor.evaluate_rename (hmirrors : Mirrors naming left right) {factor : Factor}
    (hnames : ∀ name ∈ factor.occurrences, name ∈ naming.source) :
    ((factor.rename naming.toFun).evaluate right).toOption = (factor.evaluate left).toOption := by
  cases factor with
  | num value => rfl
  | var name => exact hmirrors.number (hnames name List.mem_cons_self)
  | paren expr => exact Expr.evaluate_rename hmirrors hnames

theorem Product.evaluate_rename (hmirrors : Mirrors naming left right) {product : Product}
    (hnames : ∀ name ∈ product.occurrences, name ∈ naming.source) :
    ((product.rename naming.toFun).evaluate right).toOption = (product.evaluate left).toOption := by
  obtain ⟨first, op, second⟩ := product
  cases second with
  | none =>
      have hfirst : ((first.rename naming.toFun).evaluate right).toOption =
          (first.evaluate left).toOption := Factor.evaluate_rename hmirrors hnames
      cases op with
      | none => exact hfirst
      | some op => simp only [Product.rename, Product.evaluate, toOption_bind, hfirst]
  | some second =>
      have hfirst : ((first.rename naming.toFun).evaluate right).toOption =
          (first.evaluate left).toOption :=
        Factor.evaluate_rename hmirrors fun name hname =>
          hnames name (List.mem_append_left _ hname)
      have hsecond : ((second.rename naming.toFun).evaluate right).toOption =
          (second.evaluate left).toOption :=
        Factor.evaluate_rename hmirrors fun name hname =>
          hnames name (List.mem_append_right _ hname)
      cases op with
      | none => exact hfirst
      | some op => simp only [Product.rename, Product.evaluate, toOption_bind, hfirst, hsecond]

theorem Expr.evaluate_rename (hmirrors : Mirrors naming left right) {expr : Expr}
    (hnames : ∀ name ∈ expr.occurrences, name ∈ naming.source) :
    ((expr.rename naming.toFun).evaluate right).toOption = (expr.evaluate left).toOption := by
  obtain ⟨first, op, second⟩ := expr
  cases second with
  | none =>
      have hfirst : ((first.rename naming.toFun).evaluate right).toOption =
          (first.evaluate left).toOption := Product.evaluate_rename hmirrors hnames
      cases op with
      | none => exact hfirst
      | some op => simp only [Expr.rename, Expr.evaluate, toOption_bind, hfirst]
  | some second =>
      have hfirst : ((first.rename naming.toFun).evaluate right).toOption =
          (first.evaluate left).toOption :=
        Product.evaluate_rename hmirrors fun name hname =>
          hnames name (List.mem_append_left _ hname)
      have hsecond : ((second.rename naming.toFun).evaluate right).toOption =
          (second.evaluate left).toOption :=
        Product.evaluate_rename hmirrors fun name hname =>
          hnames name (List.mem_append_right _ hname)
      cases op with
      | none => exact hfirst
      | some op => simp only [Expr.rename, Expr.evaluate, toOption_bind, hfirst, hsecond]

end

theorem assignValue_eq (bindings : Bindings) (target : Var) (value : Expr) :
    assignValue bindings target value =
      if (bindings.dereference (.var target)).isVar then
        (value.evaluate bindings).toOption.bind fun number => bindings.bind? target (.num number)
      else none := by
  rw [assignValue]
  cases bindings.dereference (.var target) with
  | var root => cases value.evaluate bindings <;> rfl
  | _ => rfl

theorem Mirrors.assignValue (hmirrors : Mirrors naming left right) {target : Var} {value : Expr}
    (htarget : target ∈ naming.source)
    (hnames : ∀ name ∈ value.occurrences, name ∈ naming.source) :
    Option.Rel (Mirrors naming) (assignValue left target value)
      (assignValue right (naming.toFun target) (value.rename naming.toFun)) := by
  have hsame : (right.dereference (.var (naming.toFun target))).isVar = _ :=
    hmirrors.isVar_dereference (Naming.covers_var htarget)
  have hvalue := Expr.evaluate_rename hmirrors hnames
  rw [assignValue_eq, assignValue_eq, hsame, hvalue]
  split
  · cases (value.evaluate left).toOption with
    | none => exact .none
    | some number =>
        exact hmirrors.bind? htarget ⟨.num number, by simp [Term.Over, Term.occurrences]⟩ rfl
  · exact .none

end Arithmetic

section Projection

variable {moved : Var → Prop} {naming : Naming moved}

theorem Mirrors.project {found found' : Bindings} (hfound : Mirrors naming found found')
    {wanted : List Var} (hwanted : ∀ name ∈ wanted, name ∈ naming.source)
    {caller caller' : Bindings} (hcaller : Mirrors naming caller caller') :
    Option.Rel (Mirrors naming) (project found wanted caller)
      (project found' (wanted.map naming.toFun) caller') := by
  induction wanted generalizing caller caller' with
  | nil => exact .some hcaller
  | cons name wanted ih =>
      obtain ⟨hname, hwanted⟩ := List.forall_mem_cons.mp hwanted
      have hcovers := hfound.there.within.value (Naming.stable_covers naming)
        (Naming.covers_var hname)
      rw [List.map_cons, Horn.project, Horn.project, hfound.value hname, Term.isVar_rename]
      cases hvalue : (found.value name).isVar with
      | true => exact ih hwanted hcaller
      | false =>
          have hbind := hcaller.bind? hname hcovers hvalue
          simp only [Bool.false_eq_true, if_false]
          cases hextended : caller.bind? name (found.value name) <;>
            cases hextended' : caller'.bind? (naming.toFun name)
              ((found.value name).rename naming.toFun) <;>
            rw [hextended, hextended'] at hbind <;> cases hbind
          · exact .none
          · next hnext => exact ih hwanted hnext

end Projection

end Horn
