/-
Unification solves equations.  Under a substitution without cycles it ends,
and it adds entries that mean exactly that both terms have the same value; it
fails only where no solution gives them one.
-/
import Horn.Proofs.Binding

namespace Horn

theorem threadArgs_within {property : Term → Prop}
    {combine : Term → Term → Bindings → Except Mismatch Bindings} {lefts rights : List Term}
    (hcombine : ∀ left ∈ lefts, ∀ right ∈ rights, ∀ before after : Bindings,
      before.Within property → combine left right before = .ok after → after.Within property)
    {before after : Bindings} (hwithin : before.Within property)
    (hafter : threadArgs combine lefts rights before = .ok after) : after.Within property := by
  induction lefts generalizing rights before with
  | nil =>
      rw [threadArgs] at hafter
      · exact Except.ok.inj hafter ▸ hwithin
      · simp
  | cons left lefts ih =>
      cases rights with
      | nil =>
          rw [threadArgs] at hafter
          · exact Except.ok.inj hafter ▸ hwithin
          · simp
      | cons right rights =>
          simp only [threadArgs, bind, Except.bind] at hafter
          split at hafter
          · cases hafter
          · next between hbetween =>
              refine ih (fun left hleft right hright => ?_) ?_ hafter
              · exact hcombine left (List.mem_cons_of_mem _ hleft) right
                  (List.mem_cons_of_mem _ hright)
              · exact hcombine left List.mem_cons_self right List.mem_cons_self before between
                  hwithin hbetween

/-- Unification puts into entries only what it finds in its terms and in the
entries that are there, and parts of that. -/
theorem unifyUpTo_within {property : Term → Prop} (hclosed : ArgClosed property) {fuel : Nat}
    {left right : Term} {before after : Bindings} (hleft : property left)
    (hright : property right) (hwithin : before.Within property)
    (hafter : unifyUpTo fuel left right before = .ok after) : after.Within property := by
  induction fuel generalizing left right before after with
  | zero => cases hafter
  | succ fuel ih =>
      have hfirst := hwithin.dereference hleft
      have hsecond := hwithin.dereference hright
      rw [unifyUpTo] at hafter
      split at hafter
      · next first second hl hr =>
          rw [hl] at hfirst
          rw [hr] at hsecond
          split at hafter
          · exact Except.ok.inj hafter ▸ hwithin
          · split at hafter
            · exact hwithin.assign hfirst hsecond hafter
            · exact hwithin.assign hsecond hfirst hafter
      · next _ _ name hl _ =>
          rw [hl] at hfirst
          exact hwithin.assign hfirst hsecond hafter
      · next _ _ name hr _ =>
          rw [hr] at hsecond
          exact hwithin.assign hsecond hfirst hafter
      · split at hafter
        · exact Except.ok.inj hafter ▸ hwithin
        · cases hafter
      · next functor args functor' args' hl hr =>
          rw [hl] at hfirst
          rw [hr] at hsecond
          split at hafter
          · exact threadArgs_within (fun left hleft right hright before after =>
              ih (hclosed functor args hfirst left hleft)
                (hclosed functor' args' hsecond right hright)) hwithin hafter
          · cases hafter
      · split at hafter
        · split at hafter
          · exact Except.ok.inj hafter ▸ hwithin
          · cases hafter
        · cases hafter

section Ends

variable {bindings : Bindings} {left right : Term} {first second : Var} (fuel : Nat)

theorem unifyUpTo_vars (hleft : bindings.dereference left = .var first)
    (hright : bindings.dereference right = .var second) :
    unifyUpTo (fuel + 1) left right bindings =
      if first = second then .ok bindings
      else if first < second then bindings.assign first (.var second)
      else bindings.assign second (.var first) := by
  rw [unifyUpTo, hleft, hright]

theorem unifyUpTo_var_left (hleft : bindings.dereference left = .var first)
    (hright : (bindings.dereference right).isVar = false) :
    unifyUpTo (fuel + 1) left right bindings =
      bindings.assign first (bindings.dereference right) := by
  rw [unifyUpTo, hleft]
  cases hend : bindings.dereference right with
  | var second => simp [hend, Term.isVar] at hright
  | _ => rfl

theorem unifyUpTo_var_right (hleft : (bindings.dereference left).isVar = false)
    (hright : bindings.dereference right = .var second) :
    unifyUpTo (fuel + 1) left right bindings =
      bindings.assign second (bindings.dereference left) := by
  rw [unifyUpTo, hright]
  cases hend : bindings.dereference left with
  | var first => simp [hend, Term.isVar] at hleft
  | _ => rfl

theorem unifyUpTo_facts {functor functor' : String} {args args' : List Term}
    (hleft : bindings.dereference left = .fact functor args)
    (hright : bindings.dereference right = .fact functor' args') :
    unifyUpTo (fuel + 1) left right bindings =
      if functor = functor' ∧ args.length = args'.length then
        threadArgs (unifyUpTo fuel) args args' bindings
      else .error .clash := by
  rw [unifyUpTo, hleft, hright]

end Ends

theorem threadArgs_of_more {combine combine' : Term → Term → Bindings → Except Mismatch Bindings}
    (hcombine : ∀ left right before, combine left right before ≠ .error .tooDeep →
      combine' left right before = combine left right before)
    {lefts rights : List Term} {before : Bindings}
    (hfinished : threadArgs combine lefts rights before ≠ .error .tooDeep) :
    threadArgs combine' lefts rights before = threadArgs combine lefts rights before := by
  induction lefts generalizing rights before with
  | nil => cases rights <;> rfl
  | cons left lefts ih =>
      cases rights with
      | nil => rfl
      | cons right rights =>
          simp only [threadArgs, bind, Except.bind] at hfinished ⊢
          cases hhead : combine left right before with
          | error cause =>
              rw [hhead] at hfinished
              rw [hcombine left right before (by rw [hhead]; exact hfinished), hhead]
          | ok between =>
              rw [hhead] at hfinished
              rw [hcombine left right before (by rw [hhead]; simp), hhead]
              exact ih hfinished

/-- More fuel than unification needs changes nothing. -/
theorem unifyUpTo_of_more {fuel more : Nat} {left right : Term} {before : Bindings}
    (hfinished : unifyUpTo fuel left right before ≠ .error .tooDeep) (hmore : fuel ≤ more) :
    unifyUpTo more left right before = unifyUpTo fuel left right before := by
  induction fuel generalizing more left right before with
  | zero => exact absurd rfl hfinished
  | succ fuel ih =>
      obtain ⟨more, rfl⟩ := Nat.exists_eq_add_of_lt (Nat.lt_of_succ_le hmore)
      have hargs : ∀ args args', threadArgs (unifyUpTo fuel) args args' before ≠ .error .tooDeep →
          threadArgs (unifyUpTo (fuel + more)) args args' before =
            threadArgs (unifyUpTo fuel) args args' before := fun _ _ =>
        threadArgs_of_more fun _ _ _ hhead => ih hhead (Nat.le_add_right fuel more)
      rw [unifyUpTo] at hfinished ⊢
      rw [unifyUpTo]
      split at hfinished
      case h_5 functor args functor' args' _ _ =>
        split at hfinished
        · next hsame => rw [if_pos hsame, if_pos hsame, hargs args args' hfinished]
        · next hdiffer => rw [if_neg hdiffer, if_neg hdiffer]
      all_goals rfl

mutual

/-- A fact with all the facts inside it. -/
def Term.parts : Term → List Term
  | .var _ => []
  | .atom _ => []
  | .str _ => []
  | .num _ => []
  | .fact functor args => .fact functor args :: Term.partsAll args

def Term.partsAll : List Term → List Term
  | [] => []
  | term :: rest => term.parts ++ Term.partsAll rest

end

theorem Term.partsAll_eq_flatMap (terms : List Term) :
    Term.partsAll terms = terms.flatMap Term.parts := by
  induction terms with
  | nil => rfl
  | cons term rest ih => simp [Term.partsAll, ih]

mutual

theorem Term.length_parts_le_size (term : Term) : term.parts.length ≤ term.size := by
  cases term with
  | fact functor args =>
      have hargs := Term.length_partsAll_le_sizeAll args
      simp only [Term.parts, Term.size, List.length_cons]
      omega
  | _ => simp [Term.parts, Term.size]

theorem Term.length_partsAll_le_sizeAll (terms : List Term) :
    (Term.partsAll terms).length ≤ Term.sizeAll terms := by
  cases terms with
  | nil => simp [Term.partsAll]
  | cons term rest =>
      have hterm := Term.length_parts_le_size term
      have hrest := Term.length_partsAll_le_sizeAll rest
      simp only [Term.partsAll, Term.sizeAll, List.length_append]
      omega

end

/-- Having all its facts among some given ones passes from a fact to its
arguments. -/
theorem argClosed_parts_subset (facts : List Term) : ArgClosed (·.parts ⊆ facts) := by
  intro functor args hfact arg harg part hpart
  apply hfact
  rw [Term.parts, Term.partsAll_eq_flatMap]
  exact List.mem_cons_of_mem _ (List.mem_flatMap.mpr ⟨arg, harg, hpart⟩)

/-- The facts of two terms and of all entries. -/
def factsOf (left right : Term) (bindings : Bindings) : List Term :=
  left.parts ++ right.parts ++ bindings.toList.flatMap (·.2.parts)

theorem length_flatMap_parts_le (entries : List (Var × Term)) (total : Nat) :
    total + (entries.flatMap (·.2.parts)).length ≤
      entries.foldl (fun total entry => total + entry.2.size) total := by
  induction entries generalizing total with
  | nil => simp
  | cons entry rest ih =>
      have hentry := entry.2.length_parts_le_size
      have hrest := ih (total + entry.2.size)
      simp only [List.flatMap_cons, List.length_append, List.foldl_cons]
      omega

/-- The depth to which unification may go exceeds the number of facts there
are. -/
theorem length_factsOf_lt_unifyFuel (left right : Term) (bindings : Bindings) :
    (factsOf left right bindings).length < unifyFuel left right bindings := by
  have hleft := left.length_parts_le_size
  have hright := right.length_parts_le_size
  have hentries := length_flatMap_parts_le bindings.toList 0
  have hpow : left.size + right.size + bindings.weight + 1 ≤ unifyFuel left right bindings :=
    Nat.le_self_pow (by omega) _
  simp only [factsOf, List.length_append, Bindings.weight] at hpow ⊢
  omega

theorem within_factsOf (left right : Term) (bindings : Bindings) :
    bindings.Within (·.parts ⊆ factsOf left right bindings) := by
  intro name term hget
  refine ⟨by simp [Term.parts], fun part hpart => ?_⟩
  have hentry : (name, term) ∈ bindings.toList :=
    Std.ExtTreeMap.mem_toList_iff_getElem?_eq_some.mpr hget
  exact List.mem_append_right _ (List.mem_flatMap.mpr ⟨(name, term), hentry, hpart⟩)

theorem threadArgs_settles (invariant : Bindings → Prop)
    {combine : Term → Term → Bindings → Except Mismatch Bindings} {lefts rights : List Term}
    (hlength : lefts.length = rights.length)
    (hcombine : ∀ left ∈ lefts, ∀ right ∈ rights, ∀ before, invariant before →
      Settles (combine left right before) before
          (fun valuation => left.eval valuation = right.eval valuation) ∧
        ∀ after, combine left right before = .ok after → invariant after)
    {before : Bindings} (hacyclic : before.Acyclic) (hbefore : invariant before) :
    Settles (threadArgs combine lefts rights before) before
      fun valuation => lefts.map (Term.eval valuation) = rights.map (Term.eval valuation) := by
  induction lefts generalizing rights before with
  | nil =>
      cases rights with
      | nil => exact Extension.refl hacyclic fun _ _ => rfl
      | cons right rights => simp at hlength
  | cons left lefts ih =>
      cases rights with
      | nil => simp at hlength
      | cons right rights =>
          obtain ⟨hhead, hinvariant⟩ :=
            hcombine left List.mem_cons_self right List.mem_cons_self before hbefore
          simp only [threadArgs, bind, Except.bind, List.map_cons, List.cons.injEq]
          cases hresult : combine left right before with
          | error cause =>
              rw [hresult] at hhead
              cases cause with
              | clash =>
                  intro valuation hsatisfies heq
                  exact hhead valuation hsatisfies heq.1
              | tooDeep => exact hhead
          | ok between =>
              rw [hresult] at hhead
              have hextension : Extension before between _ := hhead
              have htail := ih (by simpa using hlength)
                (fun left hleft right hright => hcombine left (List.mem_cons_of_mem _ hleft)
                  right (List.mem_cons_of_mem _ hright))
                hextension.acyclic (hinvariant between hresult)
              simp only
              cases hrest : threadArgs combine lefts rights between with
              | ok after =>
                  rw [hrest] at htail
                  exact hextension.trans htail fun _ => Iff.rfl
              | error cause =>
                  rw [hrest] at htail
                  cases cause with
                  | clash =>
                      intro valuation hsatisfies heq
                      exact htail valuation
                        ((hextension.satisfies_iff valuation).mpr ⟨hsatisfies, heq.1⟩) heq.2
                  | tooDeep => exact htail

theorem Term.eval_eq_text_iff {term : Term} (hterm : ∀ name, term ≠ .var name)
    (valuation : Valuation) (text : String) :
    term.eval valuation = .text text ↔ term.text? = some text := by
  cases term with
  | var name => exact absurd rfl (hterm name)
  | _ => simp [Term.eval, Term.text?]

/-- Terms that are neither variables, nor both numbers, nor both facts have the
same value only as texts. -/
theorem texts_settle {bindings : Bindings} (hacyclic : bindings.Acyclic) {left right : Term}
    (hleft : ∀ name, left ≠ .var name) (hright : ∀ name, right ≠ .var name)
    (hnums : ∀ first second, left = .num first → right = .num second → False)
    (hcompounds : ∀ functor args functor' args',
      left = .fact functor args → right = .fact functor' args' → False) :
    Settles
      (match left.text?, right.text? with
        | some text, some text' => if text = text' then .ok bindings else .error .clash
        | _, _ => .error .clash)
      bindings fun valuation => left.eval valuation = right.eval valuation := by
  cases hl : left.text? with
  | some text =>
      have hvalue := fun valuation => (Term.eval_eq_text_iff hleft valuation text).mpr hl
      simp only [hvalue, eq_comm (a := Tree.text text), Term.eval_eq_text_iff hright]
      cases hr : right.text? with
      | some text' =>
          simp only [Option.some.injEq]
          split
          · next heq => exact Extension.refl hacyclic fun _ _ => heq.symm
          · next hne => exact fun _ _ heq => hne heq.symm
      | none => simp [Settles]
  | none =>
      intro valuation _ heq
      cases hr : right.text? with
      | some text' =>
          rw [(Term.eval_eq_text_iff hright valuation text').mpr hr,
            Term.eval_eq_text_iff hleft, hl] at heq
          cases heq
      | none =>
          cases left with
          | var name => exact hleft name rfl
          | atom text => simp [Term.text?] at hl
          | str text => simp [Term.text?] at hl
          | num value =>
              cases right with
              | var name => exact hright name rfl
              | num value' => exact hnums value value' rfl rfl
              | fact functor' args' => simp [Term.eval] at heq
              | _ => simp [Term.text?] at hr
          | fact functor args =>
              cases right with
              | var name => exact hright name rfl
              | num value' => simp [Term.eval] at heq
              | fact functor' args' => exact hcompounds functor args functor' args' rfl rfl
              | _ => simp [Term.text?] at hr

/-- Of two variables where chains end, one is bound to the other. -/
theorem vars_settle {bindings : Bindings} (hacyclic : bindings.Acyclic) {first second : Var}
    (hfirst : bindings.get? first = none) (hsecond : bindings.get? second = none) :
    Settles
      (if first = second then .ok bindings
        else if first < second then bindings.assign first (.var second)
        else bindings.assign second (.var first))
      bindings fun valuation =>
        (Term.var first).eval valuation = (Term.var second).eval valuation := by
  have hfirstEnd := Bindings.dereference_of_unbound hfirst
  have hsecondEnd := Bindings.dereference_of_unbound hsecond
  split
  · next heq => exact Extension.refl hacyclic fun _ _ => by rw [heq]
  · next hne =>
      split
      · exact Bindings.assign_settles hacyclic hfirst hsecondEnd
          fun heq => hne (Term.var.inj heq).symm
      · exact (Bindings.assign_settles hacyclic hsecond hfirstEnd
          fun heq => hne (Term.var.inj heq)).congr fun _ _ => eq_comm

/-- Numbers have the same value if their digits are the same. -/
theorem nums_settle {bindings : Bindings} (hacyclic : bindings.Acyclic) (first second : Float) :
    Settles (if numberText first = numberText second then .ok bindings else .error .clash)
      bindings fun valuation =>
        (Term.num first).eval valuation = (Term.num second).eval valuation := by
  split
  · next heq => exact Extension.refl hacyclic fun _ _ => by rw [Term.eval, Term.eval, heq]
  · next hne =>
      intro valuation _ heq
      rw [Term.eval, Term.eval, Tree.number.injEq] at heq
      exact hne heq

/-- Facts have the same value if they are facts of the same kind and their
arguments have. -/
theorem facts_settle {bindings : Bindings} {functor functor' : String} {args args' : List Term}
    {result : Except Mismatch Bindings}
    (hargs : args.length = args'.length → Settles result bindings
      fun valuation => args.map (Term.eval valuation) = args'.map (Term.eval valuation)) :
    Settles (if functor = functor' ∧ args.length = args'.length then result else .error .clash)
      bindings fun valuation =>
        (Term.fact functor args).eval valuation = (Term.fact functor' args').eval valuation := by
  split
  · next hsame =>
      refine (hargs hsame.2).congr fun valuation _ => ?_
      rw [Term.eval_fact, Term.eval_fact, Tree.node.injEq]
      exact ⟨fun h => ⟨hsame.1, h⟩, And.right⟩
  · next hdiffer =>
      intro valuation _ heq
      rw [Term.eval_fact, Term.eval_fact, Tree.node.injEq] at heq
      refine hdiffer ⟨heq.1, ?_⟩
      simpa using congrArg List.length heq.2

/-- A term that unification has come to through some facts, of finitely many that
there are.  In every solution they lie inside one another and the term inside them
all, so that no fact is met twice. -/
structure Inside (facts path : List Term) (fuel : Nat) (bindings : Bindings) (term : Term) :
    Prop where
  nodup : path.Nodup
  subset : path ⊆ facts
  enough : facts.length < path.length + fuel
  smaller : ∀ valuation : Valuation, valuation.Satisfies bindings → ∀ outer ∈ path,
    (term.eval valuation).size < (outer.eval valuation).size

section Inside

variable {facts path : List Term} {fuel : Nat} {before between : Bindings} {term : Term}

theorem Inside.fuel_ne_zero (hinside : Inside facts path fuel before term) : fuel ≠ 0 := by
  rintro rfl
  have hlength := (hinside.nodup.subperm hinside.subset).length_le
  have henough := hinside.enough
  omega

/-- From a fact into one of its arguments. -/
theorem Inside.arg (hinside : Inside facts path (fuel + 1) before term)
    (hacyclic : before.Acyclic) {functor : String} {args : List Term}
    (hend : before.dereference term = .fact functor args)
    (hfacts : (Term.fact functor args).parts ⊆ facts) (hkeeps : before.Keeps between)
    {arg : Term} (harg : arg ∈ args) :
    Inside facts (.fact functor args :: path) fuel between arg := by
  have hvalue : ∀ valuation : Valuation, valuation.Satisfies before →
      (Term.fact functor args).eval valuation = term.eval valuation := by
    intro valuation hsatisfies
    rw [← hend, hsatisfies.eval_dereference term]
  refine ⟨List.nodup_cons.mpr ⟨fun hmem => ?_, hinside.nodup⟩,
    List.cons_subset.mpr ⟨hfacts List.mem_cons_self, hinside.subset⟩, ?_,
    fun valuation hsatisfies => ?_⟩
  · obtain ⟨valuation, hsatisfies, _⟩ := hacyclic.exists_satisfies fun _ => .text ""
    have hlt := hinside.smaller valuation hsatisfies _ hmem
    rw [hvalue valuation hsatisfies] at hlt
    exact Nat.lt_irrefl _ hlt
  · have henough := hinside.enough
    rw [List.length_cons]
    omega
  · have hbefore := hsatisfies.of_keeps hkeeps
    have hlt := Term.size_eval_arg valuation functor harg
    refine List.forall_mem_cons.mpr ⟨hlt, fun outer houter => hlt.trans ?_⟩
    rw [hvalue valuation hbefore]
    exact hinside.smaller valuation hbefore outer houter

end Inside

/-- The induction is on the fuel; what the terms lie inside of tells that it
suffices. -/
theorem unifyUpTo_settles {facts path : List Term} {fuel : Nat} {left right : Term}
    {before : Bindings} (hacyclic : before.Acyclic)
    (hinside : Inside facts path fuel before left) (hleft : left.parts ⊆ facts)
    (hright : right.parts ⊆ facts) (hwithin : before.Within (·.parts ⊆ facts)) :
    Settles (unifyUpTo fuel left right before) before
      fun valuation => left.eval valuation = right.eval valuation := by
  induction fuel generalizing path left right before with
  | zero => exact absurd rfl hinside.fuel_ne_zero
  | succ fuel ih =>
      have hends : ∀ valuation : Valuation, valuation.Satisfies before →
          ((before.dereference left).eval valuation = (before.dereference right).eval valuation ↔
            left.eval valuation = right.eval valuation) := by
        intro valuation hsatisfies
        rw [hsatisfies.eval_dereference left, hsatisfies.eval_dereference right]
      refine Settles.congr ?_ hends
      have hfirst := hwithin.dereference hleft
      have hsecond := hwithin.dereference hright
      have hfirstEnd := hacyclic.dereference_dereference left
      have hsecondEnd := hacyclic.dereference_dereference right
      rw [unifyUpTo]
      split
      · next first second hl hr =>
          rw [hl, hr]
          exact vars_settle hacyclic (hacyclic.unbound_of_dereference hl)
            (hacyclic.unbound_of_dereference hr)
      · next _ _ name hl hnot =>
          rw [hl]
          exact Bindings.assign_settles hacyclic (hacyclic.unbound_of_dereference hl) hsecondEnd
            fun heq => hnot name heq
      · next _ _ name hr hnot =>
          rw [hr]
          exact (Bindings.assign_settles hacyclic (hacyclic.unbound_of_dereference hr) hfirstEnd
            fun heq => hnot name heq).congr fun _ _ => eq_comm
      · next first second hl hr =>
          rw [hl, hr]
          exact nums_settle hacyclic first second
      · next functor args functor' args' hl hr =>
          rw [hl] at hfirst
          rw [hr] at hsecond
          rw [hl, hr]
          -- between two arguments, what the facts lie inside of is kept
          refine facts_settle fun hlength => threadArgs_settles
            (fun between => between.Acyclic ∧ before.Keeps between ∧
              between.Within (·.parts ⊆ facts)) hlength ?_ hacyclic
            ⟨hacyclic, Bindings.Keeps.refl before, hwithin⟩
          rintro arg harg arg' harg' between ⟨hbetween, hkeeps, hwithin⟩
          have hargFacts := argClosed_parts_subset facts functor args hfirst arg harg
          have hargFacts' := argClosed_parts_subset facts functor' args' hsecond arg' harg'
          have hsettles := ih hbetween (hinside.arg hacyclic hl hfirst hkeeps harg) hargFacts
            hargFacts' hwithin
          refine ⟨hsettles, fun after hafter => ?_⟩
          rw [hafter] at hsettles
          have hextension : Extension between after _ := hsettles
          exact ⟨hextension.acyclic, hkeeps.trans hextension.keeps,
            unifyUpTo_within (argClosed_parts_subset facts) hargFacts hargFacts' hwithin hafter⟩
      · next hvar hvar' _ hnums hcompounds =>
          exact texts_settle hacyclic (fun name heq => hvar name heq)
            (fun name heq => hvar' name heq) hnums hcompounds

theorem unifyUpTo_unifyFuel_settles {before : Bindings} (hacyclic : before.Acyclic)
    (left right : Term) :
    Settles (unifyUpTo (unifyFuel left right before) left right before) before
      fun valuation => left.eval valuation = right.eval valuation := by
  have hleft : left.parts ⊆ factsOf left right before := by
    rw [factsOf, List.append_assoc]
    exact List.subset_append_left _ _
  have hright : right.parts ⊆ factsOf left right before := by
    rw [factsOf]
    exact List.Subset.trans (List.subset_append_right _ _) (List.subset_append_left _ _)
  have hinside : Inside (factsOf left right before) [] (unifyFuel left right before) before left :=
    ⟨List.nodup_nil, List.nil_subset _,
      by simpa using length_factsOf_lt_unifyFuel left right before, by simp⟩
  exact unifyUpTo_settles hacyclic hinside hleft hright (within_factsOf left right before)

/-- Any fuel that is enough gives the same. -/
theorem unify_eq_toOption {before : Bindings} (hacyclic : before.Acyclic) (left right : Term)
    {more : Nat} (hmore : unifyFuel left right before ≤ more) :
    unify left right before = (unifyUpTo more left right before).toOption := by
  have hsettles := unifyUpTo_unifyFuel_settles hacyclic left right
  have hfinished : unifyUpTo (unifyFuel left right before) left right before ≠ .error .tooDeep := by
    intro hdeep
    rw [hdeep] at hsettles
    exact hsettles
  rw [unify, unifyUpTo_of_more hfinished hmore]

theorem eq_ok_of_toOption {result : Except Mismatch Bindings} {found : Bindings}
    (hfound : result.toOption = some found) : result = .ok found := by
  cases result with
  | ok bindings => rw [Option.some.inj hfound]
  | error cause => cases hfound

theorem unify_extension {before after : Bindings} (hacyclic : before.Acyclic)
    {left right : Term} (hafter : unify left right before = some after) :
    Extension before after fun valuation => left.eval valuation = right.eval valuation := by
  have hsettles := unifyUpTo_unifyFuel_settles hacyclic left right
  rw [eq_ok_of_toOption hafter] at hsettles
  exact hsettles

theorem unify_eq_none {before : Bindings} (hacyclic : before.Acyclic) {left right : Term}
    (hnone : unify left right before = none) {valuation : Valuation}
    (hsatisfies : valuation.Satisfies before) : left.eval valuation ≠ right.eval valuation := by
  have hsettles := unifyUpTo_unifyFuel_settles hacyclic left right
  rw [unify] at hnone
  cases hresult : unifyUpTo (unifyFuel left right before) left right before with
  | ok found =>
      rw [hresult] at hnone
      cases hnone
  | error cause =>
      rw [hresult] at hsettles
      cases cause with
      | clash => exact hsettles valuation hsatisfies
      | tooDeep => exact hsettles.elim

theorem unify_within {property : Term → Prop} (hclosed : ArgClosed property) {left right : Term}
    {before after : Bindings} (hleft : property left) (hright : property right)
    (hwithin : before.Within property) (hafter : unify left right before = some after) :
    after.Within property :=
  unifyUpTo_within hclosed hleft hright hwithin (eq_ok_of_toOption hafter)

/-- The functor of a fact that is a goal or a head does not get into entries. -/
theorem unifyFacts_within {property : Term → Prop} (hclosed : ArgClosed property)
    {left right : Fact} {before after : Bindings} (hleft : ∀ arg ∈ left.args, property arg)
    (hright : ∀ arg ∈ right.args, property arg) (hwithin : before.Within property)
    (hafter : unifyFacts left right before = some after) : after.Within property := by
  have hpos : unifyFuel left.toTerm right.toTerm before ≠ 0 :=
    (Nat.pow_pos (Nat.succ_pos _)).ne'
  obtain ⟨fuel, hfuel⟩ := Nat.exists_eq_succ_of_ne_zero hpos
  have hend : ∀ fact : Fact, before.dereference fact.toTerm = .fact fact.functor fact.args :=
    fun _ => before.dereference_of_not_isVar rfl
  have hresult := eq_ok_of_toOption hafter
  rw [hfuel, unifyUpTo_facts fuel (hend left) (hend right)] at hresult
  split at hresult
  · exact threadArgs_within (fun arg harg arg' harg' _ _ hbefore hfound =>
      unifyUpTo_within hclosed (hleft arg harg) (hright arg' harg') hbefore hfound) hwithin hresult
  · cases hresult

/-- Unification under a substitution without cycles is sound, most general and
complete: its result has exactly the solutions that give both sides the same
tree, and if it has no result there is no such solution. -/
theorem unify_solves_exactly (before : Bindings) (hacyclic : before.Acyclic) :
    (∀ left right : Term,
      (∀ after, unify left right before = some after →
        after.Acyclic ∧ before.Keeps after ∧ ∀ valuation : Valuation,
          valuation.Satisfies after ↔
            valuation.Satisfies before ∧ left.eval valuation = right.eval valuation) ∧
      (unify left right before = none → ∀ valuation : Valuation,
        valuation.Satisfies before → left.eval valuation ≠ right.eval valuation)) ∧
    ∀ left right : Fact,
      (∀ after, unifyFacts left right before = some after →
        after.Acyclic ∧ before.Keeps after ∧ ∀ valuation : Valuation,
          valuation.Satisfies after ↔ valuation.Satisfies before ∧
            left.toTerm.eval valuation = right.toTerm.eval valuation) ∧
      (unifyFacts left right before = none → ∀ valuation : Valuation,
        valuation.Satisfies before →
          left.toTerm.eval valuation ≠ right.toTerm.eval valuation) := by
  have hterms : ∀ left right : Term,
      (∀ after, unify left right before = some after →
        after.Acyclic ∧ before.Keeps after ∧ ∀ valuation : Valuation,
          valuation.Satisfies after ↔
            valuation.Satisfies before ∧ left.eval valuation = right.eval valuation) ∧
      (unify left right before = none → ∀ valuation : Valuation,
        valuation.Satisfies before → left.eval valuation ≠ right.eval valuation) := by
    intro left right
    constructor
    · intro after hafter
      have hextension := unify_extension hacyclic hafter
      exact ⟨hextension.acyclic, hextension.keeps, hextension.satisfies_iff⟩
    · intro hnone valuation hsatisfies
      exact unify_eq_none hacyclic hnone hsatisfies
  -- Facts are unified as the terms they are.
  exact ⟨hterms, fun left right => hterms left.toTerm right.toTerm⟩

/-- Under `X = f(Y)`, unifying `X` with `f(a)` solves for `Y`. -/
theorem unify_through_entry :
    let before := Bindings.empty.insert "X" (.fact "f" [.var "Y"])
    before.Acyclic ∧ ∃ after, unify (.var "X") (.fact "f" [.atom "a"]) before = some after ∧
      after.Acyclic ∧ before.Keeps after ∧ ∀ valuation : Valuation,
        valuation.Satisfies after ↔ valuation.Satisfies before ∧
          (Term.var "X").eval valuation = (Term.fact "f" [.atom "a"]).eval valuation := by
  intro before
  have hacyclic : before.Acyclic := by
    apply Bindings.acyclic_empty.insert
    intro name hname hreaches
    have hname : name = "Y" := by simpa using hname
    have heq := Bindings.eq_of_reaches_of_unbound (Bindings.get?_empty name) hreaches
    rw [hname] at heq
    exact absurd heq (by decide)
  obtain ⟨after, hafter⟩ := Option.isSome_iff_exists.mp
    (show (unify (.var "X") (.fact "f" [.atom "a"]) before).isSome = true by decide +kernel)
  exact ⟨hacyclic, after, hafter,
    ((unify_solves_exactly before hacyclic).1 (.var "X") (.fact "f" [.atom "a"])).1 after hafter⟩

end Horn
