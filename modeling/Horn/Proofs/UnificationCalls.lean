/-
The recursion of unification.  Two terms are followed to their ends, and where
these are facts of one kind their arguments are unified from left to right,
each call under what the calls before it have bound.  Under a substitution
without cycles every such recursion ends, also in the searches through entries
that a binding makes.
-/
import Horn.Proofs.Expansion
import Horn.Proofs.Unification

namespace Horn

/-- Facts of one kind, with their arguments. -/
def Term.FactsOfKind (left right : Term) (args args' : List Term) : Prop :=
  ∃ functor, left = .fact functor args ∧ right = .fact functor args' ∧
    args.length = args'.length

/-- What two ends of chains come to if they are not facts of one kind. -/
def Bindings.join? (bindings : Bindings) : Term → Term → Option Bindings
  | .var first, .var second =>
      if first = second then some bindings
      else if first < second then bindings.bind? first (.var second)
      else bindings.bind? second (.var first)
  | .var name, term => bindings.bind? name term
  | term, .var name => bindings.bind? name term
  | .num first, .num second =>
      if numberText first = numberText second then some bindings else none
  | first, second =>
      match first.text?, second.text? with
      | some text, some text' => if text = text' then some bindings else none
      | _, _ => none

mutual

/-- The recursion on two terms ends with a result. -/
inductive Unifies : Term → Term → Bindings → Option Bindings → Prop
  | ends {left right : Term} {before : Bindings}
      (hends : ∀ args args', ¬ (before.dereference left).FactsOfKind
        (before.dereference right) args args') :
      Unifies left right before
        (before.join? (before.dereference left) (before.dereference right))
  | facts {left right : Term} {before : Bindings} {args args' : List Term}
      {result : Option Bindings}
      (hends : (before.dereference left).FactsOfKind (before.dereference right) args args')
      (hargs : UnifiesAll args args' before result) : Unifies left right before result

/-- The same of the arguments at the same places, up to the first that clash. -/
inductive UnifiesAll : List Term → List Term → Bindings → Option Bindings → Prop
  | nil (before : Bindings) : UnifiesAll [] [] before (some before)
  | clash {left right : Term} {lefts rights : List Term} {before : Bindings}
      (hhead : Unifies left right before none) :
      UnifiesAll (left :: lefts) (right :: rights) before none
  | cons {left right : Term} {lefts rights : List Term} {before between : Bindings}
      {result : Option Bindings} (hhead : Unifies left right before (some between))
      (htail : UnifiesAll lefts rights between result) :
      UnifiesAll (left :: lefts) (right :: rights) before result

end

/-- Two terms to unify under a substitution. -/
structure Equation where
  left : Term
  right : Term
  before : Bindings

/-- One equation leads to another: that of two arguments at the same place,
once the arguments to the left of them are unified. -/
inductive Equation.LeadsTo : Equation → Equation → Prop
  | argument {left right arg arg' : Term} {passed passed' rest rest' : List Term}
      {before between : Bindings}
      (hends : (before.dereference left).FactsOfKind (before.dereference right)
        (passed ++ arg :: rest) (passed' ++ arg' :: rest'))
      (hpassed : UnifiesAll passed passed' before (some between)) :
      LeadsTo ⟨left, right, before⟩ ⟨arg, arg', between⟩

namespace Bindings

/-- The search for a variable while the variables of a path are being searched.
Of the arguments of a fact, those after the first that has it are left out. -/
inductive Searches (bindings : Bindings) (target : Var) : List Var → Term → Bool → Prop
  | found {path : List Var} : Searches bindings target path (.var target) true
  | again {path : List Var} {name : Var} (hother : name ≠ target) (hmet : name ∈ path) :
      Searches bindings target path (.var name) false
  | unbound {path : List Var} {name : Var} (hother : name ≠ target)
      (hunbound : bindings.get? name = none) : Searches bindings target path (.var name) false
  | entry {path : List Var} {name : Var} {term : Term} {result : Bool} (hother : name ≠ target)
      (hnew : name ∉ path) (hget : bindings.get? name = some term)
      (hterm : Searches bindings target (name :: path) term result) :
      Searches bindings target path (.var name) result
  | atom {path : List Var} (text : String) : Searches bindings target path (.atom text) false
  | str {path : List Var} (text : String) : Searches bindings target path (.str text) false
  | num {path : List Var} (value : Float) : Searches bindings target path (.num value) false
  | first {path : List Var} {passed rest : List Term} {arg : Term} (functor : String)
      (hpassed : ∀ other ∈ passed, Searches bindings target path other false)
      (harg : Searches bindings target path arg true) :
      Searches bindings target path (.fact functor (passed ++ arg :: rest)) true
  | nowhere {path : List Var} {args : List Term} (functor : String)
      (hargs : ∀ arg ∈ args, Searches bindings target path arg false) :
      Searches bindings target path (.fact functor args) false

theorem any_occurrences_fact (functor : String) (args : List Term) (test : Var → Bool) :
    (Term.fact functor args).occurrences.any test =
      args.any fun arg => arg.occurrences.any test := by
  rw [Term.occurrences, Term.occurrencesAll_eq_flatMap, List.any_flatMap]

theorem Searches.any_reachesUpTo {bindings : Bindings} {target : Var} {path : List Var}
    {term : Term} {result : Bool} (hsearches : bindings.Searches target path term result)
    {fuel : Nat} (hfuel : (bindings.unmet path).card ≤ fuel) :
    term.occurrences.any (bindings.reachesUpTo target (fuel + 1) path) = result := by
  induction hsearches generalizing fuel with
  | found => simp [Term.occurrences, reachesUpTo]
  | again hother hmet => simp [Term.occurrences, reachesUpTo, hother, hmet]
  | unbound hother hunbound => simp [Term.occurrences, reachesUpTo, hother, hunbound]
  | @entry path name term result hother hnew hget _ ih =>
      have hless := card_unmet_cons_lt hnew hget
      obtain ⟨fuel, rfl⟩ := Nat.exists_eq_add_one.mpr (Nat.zero_lt_of_lt (hless.trans_le hfuel))
      rw [Term.occurrences, List.any_cons, List.any_nil, Bool.or_false, reachesUpTo,
        if_neg hother, if_neg hnew, hget]
      exact ih (by omega)
  | first functor _ _ ihPassed ihArg =>
      rw [any_occurrences_fact, List.any_append, List.any_cons, ihArg hfuel]
      simp
  | nowhere functor _ ih =>
      rw [any_occurrences_fact, List.any_eq_false]
      intro arg harg
      simp [ih arg harg hfuel]
  | _ => rfl

theorem exists_searches (bindings : Bindings) (target : Var) (path : List Var) (term : Term) :
    ∃ result, bindings.Searches target path term result := by
  induction hcall : (path, term) using bindings.wellFounded_descends.induction
      generalizing path term with
  | _ call ih =>
      subst hcall
      cases term with
      | var name =>
          by_cases hother : name = target
          · exact ⟨true, hother ▸ .found⟩
          by_cases hmet : name ∈ path
          · exact ⟨false, .again hother hmet⟩
          cases hget : bindings.get? name with
          | none => exact ⟨false, .unbound hother hget⟩
          | some term =>
              obtain ⟨result, hresult⟩ := ih _ (.entry hmet hget) _ _ rfl
              exact ⟨result, .entry hother hmet hget hresult⟩
      | fact functor args =>
          -- every argument has a result, so there is a first one with the answer yes or none
          have hargs : ∀ arg ∈ args, ∃ result, bindings.Searches target path arg result :=
            fun arg harg => ih _ (.argument harg) _ _ rfl
          choose! result hresult using hargs
          cases hfirst : args.find? result with
          | none =>
              refine ⟨false, .nowhere functor fun arg harg => ?_⟩
              have hnot := List.find?_eq_none.mp hfirst arg harg
              rw [← Bool.eq_false_of_not_eq_true hnot]
              exact hresult arg harg
          | some arg =>
              obtain ⟨hyes, passed, rest, rfl, hpassed⟩ := List.find?_eq_some_iff_append.mp hfirst
              refine ⟨true, .first functor (fun other hother => ?_) ?_⟩
              · have hnot : result other = false := by simpa using hpassed other hother
                rw [← hnot]
                exact hresult other (List.mem_append_left _ hother)
              · rw [← hyes]
                exact hresult arg (by simp)
      | atom text => exact ⟨false, .atom text⟩
      | str text => exact ⟨false, .str text⟩
      | num value => exact ⟨false, .num value⟩

/-- The search for a variable ends on every substitution, with one result. -/
theorem searches_iff {bindings : Bindings} {target : Var} {term : Term} {result : Bool} :
    bindings.Searches target [] term result ↔ bindings.occurs target term = result := by
  have hoccurs : ∀ found, bindings.Searches target [] term found →
      bindings.occurs target term = found :=
    fun _ hfound => hfound.any_reachesUpTo (bindings.card_unmet_le_size [])
  constructor
  · exact hoccurs result
  · rintro rfl
    obtain ⟨found, hfound⟩ := bindings.exists_searches target [] term
    rwa [hoccurs found hfound]

end Bindings

theorem Term.FactsOfKind.unique {left right : Term} {args args' others others' : List Term}
    (hfirst : left.FactsOfKind right args args')
    (hsecond : left.FactsOfKind right others others') : args = others ∧ args' = others' := by
  obtain ⟨functor, rfl, rfl, _⟩ := hfirst
  obtain ⟨functor', hleft, hright, _⟩ := hsecond
  exact ⟨(Term.fact.inj hleft).2, (Term.fact.inj hright).2⟩

theorem unifyUpTo_of_factsOfKind {before : Bindings} {left right : Term} {args args' : List Term}
    (fuel : Nat)
    (hends : (before.dereference left).FactsOfKind (before.dereference right) args args') :
    unifyUpTo (fuel + 1) left right before = threadArgs (unifyUpTo fuel) args args' before := by
  obtain ⟨functor, hleft, hright, hlength⟩ := hends
  rw [unifyUpTo_facts fuel hleft hright, if_pos ⟨rfl, hlength⟩]

/-- Ends that are not facts of one kind are dealt with at once. -/
theorem toOption_unifyUpTo {before : Bindings} {left right : Term} (fuel : Nat)
    (hends : ∀ args args', ¬ (before.dereference left).FactsOfKind
      (before.dereference right) args args') :
    (unifyUpTo (fuel + 1) left right before).toOption =
      before.join? (before.dereference left) (before.dereference right) := by
  have hok : (Except.ok before : Except Mismatch Bindings).toOption = some before := rfl
  have hclash : (Except.error .clash : Except Mismatch Bindings).toOption = none := rfl
  rw [unifyUpTo]
  split
  case h_5 functor args functor' args' hl hr =>
    rw [hl, hr] at hends ⊢
    rw [if_neg fun hsame => hends args args' ⟨functor, rfl, by rw [hsame.1], hsame.2⟩]
    rfl
  case h_1 first second hl hr =>
    rw [hl, hr, Bindings.join?]
    simp only [apply_ite Except.toOption, Bindings.toOption_assign, hok]
  case h_2 name hl hnot =>
    rw [hl, Bindings.toOption_assign, Bindings.join?]
    exact hnot
  case h_3 name hr hnot =>
    rw [hr, Bindings.toOption_assign, Bindings.join?]
    exact hnot
  case h_4 first second hl hr =>
    rw [hl, hr, Bindings.join?]
    simp only [apply_ite Except.toOption, hok, hclash]
  case h_6 =>
    rw [Bindings.join?]
    · cases (before.dereference left).text? with
      | none => rfl
      | some text =>
          cases (before.dereference right).text? with
          | none => rfl
          | some text' => simp only [apply_ite Except.toOption, hok, hclash]
    all_goals assumption

theorem threadArgs_append
    (combine : Term → Term → Bindings → Except Mismatch Bindings) {passed passed' : List Term}
    (hlength : passed.length = passed'.length) (rest rest' : List Term) (before : Bindings) :
    threadArgs combine (passed ++ rest) (passed' ++ rest') before =
      threadArgs combine passed passed' before >>= threadArgs combine rest rest' := by
  induction passed generalizing passed' before with
  | nil =>
      rw [List.eq_nil_of_length_eq_zero hlength.symm]
      rfl
  | cons left lefts ih =>
      cases passed' with
      | nil => cases hlength
      | cons right rights =>
          rw [List.cons_append, List.cons_append, threadArgs, threadArgs, bind_assoc]
          congr 1
          funext between
          exact ih (Nat.succ.inj hlength) between

theorem UnifiesAll.length_eq {lefts rights : List Term} {before after : Bindings}
    (hargs : UnifiesAll lefts rights before (some after)) : lefts.length = rights.length := by
  induction lefts generalizing rights before with
  | nil =>
      cases hargs
      rfl
  | cons left lefts ih =>
      cases hargs with
      | cons _ htail => rw [List.length_cons, List.length_cons, ih htail]

/-- Arguments are unified as they are combined, if each combination that
finishes does what unification does. -/
theorem unifiesAll_iff {combine : Term → Term → Bindings → Except Mismatch Bindings}
    (hcombine : ∀ left right before, combine left right before ≠ .error .tooDeep →
      ∀ result, Unifies left right before result ↔
        (combine left right before).toOption = result)
    {lefts rights : List Term} (hlength : lefts.length = rights.length) {before : Bindings}
    (hfinished : threadArgs combine lefts rights before ≠ .error .tooDeep)
    (result : Option Bindings) :
    UnifiesAll lefts rights before result ↔
      (threadArgs combine lefts rights before).toOption = result := by
  induction lefts generalizing rights before with
  | nil =>
      rw [List.eq_nil_of_length_eq_zero hlength.symm]
      constructor
      · rintro ⟨⟩
        rfl
      · rintro rfl
        exact .nil before
  | cons left lefts ih =>
      cases rights with
      | nil => cases hlength
      | cons right rights =>
          have hhead := hcombine left right before
          rw [threadArgs] at hfinished ⊢
          cases hresult : combine left right before with
          | error cause =>
              rw [hresult] at hhead hfinished
              have hiff := hhead hfinished
              constructor
              · intro hargs
                cases hargs with
                | clash _ => rfl
                | cons hsome _ => cases (hiff _).mp hsome
              · rintro rfl
                exact .clash ((hiff none).mpr rfl)
          | ok between =>
              rw [hresult] at hhead hfinished
              have hiff := hhead (by simp)
              have htail := ih (Nat.succ.inj hlength) hfinished
              constructor
              · intro hargs
                cases hargs with
                | clash hnone => cases (hiff _).mp hnone
                | cons hsome hrest =>
                    obtain rfl := Option.some.inj ((hiff _).mp hsome)
                    exact htail.mp hrest
              · intro hrest
                exact .cons ((hiff _).mpr rfl) (htail.mpr hrest)

/-- A run that is not cut off has derived its result, and there is no other. -/
theorem unifies_iff {fuel : Nat} {left right : Term} {before : Bindings}
    (hfinished : unifyUpTo fuel left right before ≠ .error .tooDeep)
    (result : Option Bindings) :
    Unifies left right before result ↔
      (unifyUpTo fuel left right before).toOption = result := by
  induction fuel generalizing left right before result with
  | zero => exact absurd rfl hfinished
  | succ fuel ih =>
      by_cases hkind : ∃ args args', (before.dereference left).FactsOfKind
          (before.dereference right) args args'
      · obtain ⟨args, args', hends⟩ := hkind
        rw [unifyUpTo_of_factsOfKind fuel hends] at hfinished ⊢
        obtain ⟨_, _, _, hlength⟩ := id hends
        rw [← unifiesAll_iff (fun _ _ _ => ih) hlength hfinished]
        constructor
        · intro hunifies
          cases hunifies with
          | ends hdiffer => exact absurd hends (hdiffer args args')
          | facts hfacts hargs =>
              obtain ⟨rfl, rfl⟩ := hends.unique hfacts
              exact hargs
        · exact .facts hends
      · have hends : ∀ args args', ¬ (before.dereference left).FactsOfKind
            (before.dereference right) args args' :=
          fun args args' hfacts => hkind ⟨args, args', hfacts⟩
        rw [toOption_unifyUpTo fuel hends]
        constructor
        · intro hunifies
          cases hunifies with
          | ends _ => rfl
          | facts hfacts _ => exact absurd hfacts (hends _ _)
        · rintro rfl
          exact .ends hends

/-- No equation that such a run comes to leads on without end. -/
theorem acc_leadsTo {fuel : Nat} {left right : Term} {before : Bindings}
    (hfinished : unifyUpTo fuel left right before ≠ .error .tooDeep) :
    Acc (Function.swap Equation.LeadsTo) ⟨left, right, before⟩ := by
  induction fuel generalizing left right before with
  | zero => exact absurd rfl hfinished
  | succ fuel ih =>
      refine ⟨_, fun next hnext => ?_⟩
      obtain @⟨_, _, arg, arg', passed, passed', rest, rest', _, between, hends, hpassed⟩ := hnext
      apply ih
      intro hdeep
      apply hfinished
      rw [unifyUpTo_of_factsOfKind fuel hends, threadArgs_append _ hpassed.length_eq]
      by_cases hcut : threadArgs (unifyUpTo fuel) passed passed' before = .error .tooDeep
      · rw [hcut]
        rfl
      · have hbetween := (unifiesAll_iff (fun _ _ _ => unifies_iff) hpassed.length_eq hcut _).mp
          hpassed
        rw [eq_ok_of_toOption hbetween]
        change (unifyUpTo fuel arg arg' between >>= threadArgs (unifyUpTo fuel) rest rest') = _
        rw [hdeep]
        rfl

theorem Bindings.Acyclic.unifyUpTo_ne_tooDeep {before : Bindings} (hacyclic : before.Acyclic)
    (left right : Term) :
    unifyUpTo (unifyFuel left right before) left right before ≠ .error .tooDeep := by
  intro hdeep
  have hsettles := unifyUpTo_unifyFuel_settles hacyclic left right
  rw [hdeep] at hsettles
  exact hsettles

/-- Under a substitution without cycles no equation leads on to others without
end, so that the recursion on two terms or two facts ends, and its result is
that of unification.  So do, under any substitution, the searches through
entries and the expansions that a binding makes. -/
theorem unification_recursion_ends {before : Bindings} (hacyclic : before.Acyclic) :
    (∀ left right : Term, Acc (Function.swap Equation.LeadsTo) ⟨left, right, before⟩ ∧
      ∀ result, Unifies left right before result ↔ unify left right before = result) ∧
    (∀ left right : Fact,
      Acc (Function.swap Equation.LeadsTo) ⟨left.toTerm, right.toTerm, before⟩ ∧
      ∀ result, Unifies left.toTerm right.toTerm before result ↔
        unifyFacts left right before = result) ∧
    ∀ (bindings : Bindings) (term : Term),
      (∀ target result, bindings.Searches target [] term result ↔
        bindings.occurs target term = result) ∧
      ∀ value, bindings.Expands [] term value ↔ bindings.ground term = value := by
  have hterms : ∀ left right : Term,
      Acc (Function.swap Equation.LeadsTo) ⟨left, right, before⟩ ∧
        ∀ result, Unifies left right before result ↔ unify left right before = result :=
    fun left right => ⟨acc_leadsTo (hacyclic.unifyUpTo_ne_tooDeep left right),
      unifies_iff (hacyclic.unifyUpTo_ne_tooDeep left right)⟩
  refine ⟨hterms, fun left right => hterms left.toTerm right.toTerm, fun bindings term => ?_⟩
  exact ⟨fun target result => Bindings.searches_iff, fun value => Bindings.expands_iff⟩

/-- Under `X = f(Y, Y)`, the recursion on `X` and `f(Z, g(Z))` binds a variable for
the first arguments and fails at the second. -/
theorem sibling_equation_clashes :
    let before := Bindings.empty.insert "X" (.fact "f" [.var "Y", .var "Y"])
    before.Acyclic ∧
      Unifies (.var "X") (.fact "f" [.var "Z", .fact "g" [.var "Z"]]) before none := by
  intro before
  have hacyclic : before.Acyclic := Bindings.acyclic_single (by decide)
  refine ⟨hacyclic, ?_⟩
  apply (((unification_recursion_ends hacyclic).1 _ _).2 none).mpr
  rw [← Option.isNone_iff_eq_none]
  decide +kernel

end Horn
