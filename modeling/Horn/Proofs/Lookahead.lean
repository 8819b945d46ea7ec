/-
One token of lookahead.  What a reader does up to some token depends only on the
tokens before it and on this token: other readers of the same kind do the same
with other texts that start alike.  So a fault that shows a token would be found
there whatever follows, and if the text ended there instead, the end of the text
would be found in its place.
-/
import Horn.Proofs.EntryPoints

namespace Horn

/-- The token that was found where another was expected, if a fault shows it. -/
def Fault.shown? : Fault → Option Token
  | .expectedSymbol _ found => some found
  | .expectedTerm found => some found
  | .expectedOperand found => some found
  | .textAfterQuery found => some found
  | _ => none

/-- Whether a fault is noticed only after the token that it shows has been
passed. -/
def Fault.isLate : Fault → Bool
  | .expectedTerm _ => true
  | .expectedOperand _ => true
  | _ => false

/-- A fault that shows a token, with the end of the text in its place. -/
def Fault.atEnd : Fault → Fault
  | .expectedSymbol expected _ => .expectedSymbol expected .endOfText
  | .expectedTerm _ => .expectedTerm .endOfText
  | .expectedOperand _ => .expectedOperand .endOfText
  | .textAfterQuery _ => .textAfterQuery .endOfText
  | fault => fault

/-- Where a fault is placed that shows the token in view: at this token, or at the
next one if it is noticed late. -/
def Fault.PlacedIn (fault : Fault) (position : Position) : Tokens → Prop
  | .next _ place rest =>
      if fault.isLate then rest.isBroken = false ∧ position = rest.position else position = place
  | .done place => position = place
  | .broken error => position = error.position

/-- No fault of the text itself shows a token. -/
def Tokens.Silent : Tokens → Prop
  | .next _ _ rest => rest.Silent
  | .done _ => True
  | .broken error => error.fault.shown? = none

theorem Tokens.Passes.silent {tokens left : Tokens} {passed : List Token}
    (hpasses : tokens.Passes passed left) (hsilent : tokens.Silent) : left.Silent := by
  induction hpasses with
  | nil tokens => exact hsilent
  | next hrest hpasses ih => exact ih hsilent

/-- Some tokens have the same token in view as others, or are at their end. -/
def Tokens.Resembles (tokens other : Tokens) : Prop :=
  tokens.current = other.current ∨ tokens.current = .endOfText

/-- Where the same tokens are passed, the start resembles if the end does. -/
theorem Tokens.Resembles.of_passes {tokens other left last : Tokens} {passed : List Token}
    (hleft : last.Resembles left) (hpasses : tokens.Passes passed left)
    (hother : other.Passes passed last) : other.Resembles tokens := by
  cases hpasses with
  | nil =>
      cases hother
      exact hleft
  | next =>
      cases hother
      exact .inl rfl

namespace Reader

/-- A reader says of the end of a text what it said of the token that it showed. -/
abbrev LacksToken {α : Type} (error : ParseError) (position : Position)
    (result : Except ParseError (α × Input)) : Prop :=
  result = .error ⟨error.fault.atEnd, position⟩

/-- If a reader shows a token of some tokens, others of its kind do not get past this
token in any text that starts alike, and end in a certain way if the text ends in its
place, when they have fuel for the tokens passed until then. -/
def FaultsAt {α : Type}
    (ends : ParseError → Position → Except ParseError (α × Input) → Prop) (reader : Reader α)
    (spare : Nat) (again : Nat → Reader α) (tokens : Tokens) (count : Nat) : Prop :=
  ∀ ⦃error : ParseError⦄ ⦃found : Token⦄, reader ⟨tokens, count⟩ = .error error →
    error.fault.shown? = some found →
    ∃ passed left, tokens.Passes passed left ∧ left.current = found ∧
      error.fault.PlacedIn error.position left ∧
      ∀ {fuel : Nat} {other last : Tokens}, 4 * passed.length + spare ≤ fuel →
        other.Passes passed last →
        (last.current = found → ∃ failure, again fuel ⟨other, count⟩ = .error failure) ∧
        ∀ position, last = .done position → ends error position (again fuel ⟨other, count⟩)

/-- What a reader does with some tokens, others of its kind do with every text
that goes on alike up to the token in view at the end. -/
structure EchoesAt {α : Type} (reader : Reader α) (spare : Nat) (again : Nat → Reader α)
    (tokens : Tokens) (count : Nat) : Prop where
  value {result : α} {left : Input} : reader ⟨tokens, count⟩ = .ok (result, left) →
    ∃ passed, tokens.Passes passed left.tokens ∧
      ∀ {fuel : Nat} {other last : Tokens}, 4 * passed.length + spare ≤ fuel →
        other.Passes passed last → last.Resembles left.tokens →
        again fuel ⟨other, count⟩ = .ok (result, ⟨last, left.placeholders⟩)
  fault : FaultsAt LacksToken reader spare again tokens count

def Echoes {α : Type} (reader : Reader α) (spare : Nat) (again : Nat → Reader α) : Prop :=
  ∀ tokens count, tokens.Silent → EchoesAt reader spare again tokens count

section Combinators

variable {α β : Type} {spare : Nat}

theorem Echoes.refuel {reader : Reader α} {again other : Nat → Reader α} {more : Nat}
    (hechoes : Echoes reader spare again)
    (hfuel : ∀ size fuel, size + more ≤ fuel → ∃ less, size + spare ≤ less ∧
      other fuel = again less) : Echoes reader more other := by
  intro tokens count hsilent
  constructor
  · intro result left hread
    obtain ⟨passed, hpasses, hagain⟩ := (hechoes tokens count hsilent).value hread
    refine ⟨passed, hpasses, fun hmore => ?_⟩
    obtain ⟨less, hless, hsame⟩ := hfuel _ _ hmore
    rw [hsame]
    exact hagain hless
  · intro error found hread hshown
    obtain ⟨passed, left, hpasses, hcurrent, hplace, hagain⟩ :=
      (hechoes tokens count hsilent).fault hread hshown
    refine ⟨passed, left, hpasses, hcurrent, hplace, fun hmore => ?_⟩
    obtain ⟨less, hless, hsame⟩ := hfuel _ _ hmore
    rw [hsame]
    exact hagain hless

theorem Echoes.mono {reader : Reader α} {again : Nat → Reader α} {more : Nat}
    (hechoes : Echoes reader spare again) (hmore : spare ≤ more) : Echoes reader more again :=
  hechoes.refuel fun _ fuel _ => ⟨fuel, by omega, rfl⟩

theorem Echoes.add {reader : Reader α} {again : Nat → Reader α}
    (hechoes : Echoes reader spare again) (extra : Nat) :
    Echoes reader spare fun fuel => again (fuel + extra) :=
  hechoes.refuel fun _ fuel _ => ⟨fuel + extra, by omega, rfl⟩

/-- A step of a recursion takes one unit of fuel. -/
theorem Echoes.of_succ {reader : Reader α} {again : Nat → Reader α}
    (hechoes : Echoes reader spare fun fuel => again (fuel + 1)) :
    Echoes reader (spare + 1) again := by
  refine hechoes.refuel fun size fuel hfuel => ?_
  obtain ⟨less, rfl⟩ : ∃ less, fuel = less + 1 := Nat.exists_eq_add_one_of_ne_zero (by omega)
  exact ⟨less, by omega, rfl⟩

theorem echoes_pure (value : α) : Echoes (pure value) spare fun _ => pure value := by
  intro tokens count _
  constructor
  · intro result left hread
    cases hread
    refine ⟨[], .nil tokens, fun _ hpasses _ => ?_⟩
    rw [hpasses.eq_of_nil]
    rfl
  · intro error found hread
    cases hread

/-- A fault that shows no token. -/
theorem echoes_fail {fault : Fault} (hfault : fault.shown? = none) (again : Nat → Reader α) :
    Echoes (fail fault) spare again := by
  intro tokens count _
  constructor
  · intro result left hread
    cases hread
  · intro error found hread hshown
    cases hread
    rw [hfault] at hshown
    cases hshown

theorem bind_eq_of_error {first : Reader α} {next : α → Reader β} {input : Input}
    {error : ParseError} (hfirst : first input = .error error) :
    (first >>= next) input = .error error := by
  change (first input).bind (fun result => next result.1 result.2) = _
  rw [hfirst]
  rfl

/-- A fault after some tokens is found there again, as the tokens are passed again. -/
theorem FaultsAt.bind {ends : ParseError → Position → Except ParseError (β × Input) → Prop}
    (hends : ∀ {error position result}, LacksToken error position result →
      ends error position result)
    {first : Reader α} {next : α → Reader β} {again : Nat → Reader α}
    {againNext : α → Nat → Reader β} {more : Nat} {tokens : Tokens} {count : Nat}
    (hfirst : EchoesAt first spare again tokens count)
    (hnext : ∀ {value left}, first ⟨tokens, count⟩ = .ok (value, left) →
      FaultsAt ends (next value) more (againNext value) left.tokens left.placeholders)
    (hmore : ∀ {value left passed}, first ⟨tokens, count⟩ = .ok (value, left) →
      tokens.Passes passed left.tokens → more ≤ 4 * passed.length + spare) :
    FaultsAt ends (first >>= next) spare
      (fun fuel => again fuel >>= fun value => againNext value fuel) tokens count := by
  intro error found hbind hshown
  cases hread : first ⟨tokens, count⟩ with
  | error failure =>
      rw [bind_eq_of_error hread] at hbind
      cases hbind
      obtain ⟨passed, left, hpasses, hcurrent, hplace, hagain⟩ := hfirst.fault hread hshown
      refine ⟨passed, left, hpasses, hcurrent, hplace, fun hfuel hother => ?_⟩
      obtain ⟨hfound, hend⟩ := hagain hfuel hother
      refine ⟨fun hlast => ?_, fun position hdone => ?_⟩
      · obtain ⟨failure, hfailure⟩ := hfound hlast
        exact ⟨failure, bind_eq_of_error hfailure⟩
      · exact hends (bind_eq_of_error (hend position hdone))
  | ok result =>
      obtain ⟨value, mid⟩ := result
      rw [bind_eq_of_ok hread] at hbind
      obtain ⟨passed, hpasses, hagain⟩ := hfirst.value hread
      obtain ⟨rest, left, hrest, hcurrent, hplace, hagain'⟩ := hnext hread hbind hshown
      refine ⟨passed ++ rest, left, hpasses.trans hrest, hcurrent, hplace, ?_⟩
      intro fuel other last hfuel hother
      have hspare := hmore hread hpasses
      rw [List.length_append] at hfuel
      obtain ⟨mid', hother, hother'⟩ := hother.split
      have hpassed (hlast : last.Resembles left) :=
        hagain (show 4 * passed.length + spare ≤ fuel by omega) hother
          (hlast.of_passes hrest hother')
      obtain ⟨hfound, hend⟩ := hagain' (show 4 * rest.length + more ≤ fuel by omega) hother'
      refine ⟨fun hlast => ?_, fun position hdone => ?_⟩
      · dsimp only
        rw [bind_eq_of_ok (hpassed (.inl (hlast.trans hcurrent.symm)))]
        exact hfound hlast
      · dsimp only
        rw [bind_eq_of_ok (hpassed (.inr (congrArg Tokens.current hdone)))]
        exact hend position hdone

theorem Echoes.bind {first : Reader α} {next : α → Reader β} {again : Nat → Reader α}
    {againNext : α → Nat → Reader β} (hfirst : Echoes first spare again)
    (hnext : ∀ value, Echoes (next value) spare (againNext value)) :
    Echoes (first >>= next) spare fun fuel => again fuel >>= fun value => againNext value fuel := by
  intro tokens count hsilent
  have hechoes := hfirst tokens count hsilent
  have hthen {value : α} {left : Input} (hread : first ⟨tokens, count⟩ = .ok (value, left)) :
      EchoesAt (next value) spare (againNext value) left.tokens left.placeholders := by
    obtain ⟨passed, hpasses, _⟩ := hechoes.value hread
    exact hnext value left.tokens left.placeholders (hpasses.silent hsilent)
  constructor
  · intro result left hbind
    obtain ⟨value, mid, hread, hlast⟩ := exists_of_bind_ok hbind
    obtain ⟨passed, hpasses, hagain⟩ := hechoes.value hread
    obtain ⟨more, hmore, hagain'⟩ := (hthen hread).value hlast
    refine ⟨passed ++ more, hpasses.trans hmore, fun {fuel _ _} hfuel hother hlast => ?_⟩
    rw [List.length_append] at hfuel
    obtain ⟨mid', hother, hother'⟩ := hother.split
    have hmid := hlast.of_passes hmore hother'
    rw [bind_eq_of_ok (hagain (show 4 * passed.length + spare ≤ fuel by omega) hother hmid)]
    exact hagain' (by omega) hother' hlast
  · exact FaultsAt.bind (fun hend => hend) hechoes (fun hread => (hthen hread).fault)
      fun _ _ => Nat.le_add_left ..

/-- A reader that passes a token has fuel for what it does then. -/
theorem EchoesAt.cons {reader rest : Reader α} {again againRest : Nat → Reader α} {token : Token}
    {position : Position} {tokens : Tokens} {count : Nat} (htokens : tokens.isBroken = false)
    (hrest : EchoesAt rest (spare + 4) againRest tokens count)
    (hreader : reader ⟨.next token position tokens, count⟩ = rest ⟨tokens, count⟩)
    (hagain : ∀ fuel place other, other.isBroken = false →
      again fuel ⟨.next token place other, count⟩ = againRest fuel ⟨other, count⟩) :
    EchoesAt reader spare again (.next token position tokens) count := by
  constructor
  · intro result left hread
    rw [hreader] at hread
    obtain ⟨passed, hpasses, hsame⟩ := hrest.value hread
    refine ⟨token :: passed, .next htokens hpasses, fun hfuel hother hlast => ?_⟩
    rw [List.length_cons] at hfuel
    cases hother with
    | next hunbroken hother =>
        rw [hagain _ _ _ hunbroken]
        exact hsame (by omega) hother hlast
  · intro error found hread hshown
    rw [hreader] at hread
    obtain ⟨passed, left, hpasses, hcurrent, hplace, hsame⟩ := hrest.fault hread hshown
    refine ⟨token :: passed, left, .next htokens hpasses, hcurrent, hplace, fun hfuel hother => ?_⟩
    rw [List.length_cons] at hfuel
    cases hother with
    | next hunbroken hother =>
        rw [hagain _ _ _ hunbroken]
        exact hsame (by omega) hother

/-- A fault that shows no token, as those of the text itself. -/
theorem echoesAt_of_silent {reader : Reader α} {again : Nat → Reader α} {tokens : Tokens}
    {count : Nat} {error : ParseError} (hread : reader ⟨tokens, count⟩ = .error error)
    (herror : error.fault.shown? = none) : EchoesAt reader spare again tokens count := by
  constructor
  · intro result left hvalue
    rw [hread] at hvalue
    cases hvalue
  · intro failure found hfailure hshown
    rw [hread] at hfailure
    cases hfailure
    rw [herror] at hshown
    cases hshown

/-- A fault that shows the token in view. -/
theorem echoesAt_of_shown {reader : Reader α} {again : Nat → Reader α} {tokens : Tokens}
    {count : Nat} {fault : Fault} {place : Position}
    (hread : reader ⟨tokens, count⟩ = .error ⟨fault, place⟩)
    (hshown : fault.shown? = some tokens.current) (hplace : fault.PlacedIn place tokens)
    (hsame : ∀ fuel other, other.current = tokens.current →
      ∃ failure, again fuel ⟨other, count⟩ = .error failure)
    (hend : ∀ fuel position, again fuel ⟨.done position, count⟩ = .error ⟨fault.atEnd, position⟩) :
    EchoesAt reader spare again tokens count := by
  constructor
  · intro result left hvalue
    rw [hread] at hvalue
    cases hvalue
  · intro failure found hfailure hfound
    rw [hread] at hfailure
    cases hfailure
    obtain rfl := Option.some.inj (hshown.symm.trans hfound)
    refine ⟨[], tokens, .nil tokens, rfl, hplace, fun _ hother => ?_⟩
    rw [← hother.eq_of_nil]
    refine ⟨fun hlast => hsame _ _ hlast, ?_⟩
    rintro position rfl
    exact hend _ position

theorem advance_of_unbroken {next : Token → Reader α} {token : Token} {position : Position}
    {tokens : Tokens} (htokens : tokens.isBroken = false) (count : Nat) :
    (advance >>= next) ⟨.next token position tokens, count⟩ = next token ⟨tokens, count⟩ := by
  cases tokens with
  | broken error => cases htokens
  | _ => rfl

/-- A reader that looks at the token in view and passes it, or leaves it there
and does then what it does at the end of the text. -/
theorem echoes_look (test : Token → Prop) {reader idle : Reader α} {taken : Token → Reader α}
    {again againIdle : Nat → Reader α} {againTaken : Token → Nat → Reader α}
    (hend : ¬test .endOfText) (hidle : Echoes idle spare againIdle)
    (htaken : ∀ token, test token → Echoes (taken token) (spare + 4) (againTaken token))
    (hskip : ∀ input : Input, ¬test input.tokens.current → reader input = idle input)
    (htake : ∀ input : Input, test input.tokens.current →
      reader input = (advance >>= fun _ => taken input.tokens.current) input)
    (hskip' : ∀ fuel (input : Input), ¬test input.tokens.current →
      again fuel input = againIdle fuel input)
    (htake' : ∀ fuel (input : Input), test input.tokens.current →
      again fuel input = (advance >>= fun _ => againTaken input.tokens.current fuel) input) :
    Echoes reader spare again := by
  intro tokens count hsilent
  by_cases htest : test tokens.current
  · cases tokens with
    | next token position rest =>
        cases hbroken : rest.isBroken with
        | true =>
            cases rest with
            | broken error =>
                exact echoesAt_of_silent (htake ⟨.next token position (.broken error), count⟩ htest)
                  hsilent
            | _ => cases hbroken
        | false =>
            refine EchoesAt.cons hbroken (htaken token htest rest count hsilent) ?_ ?_
            · rw [htake _ htest, advance_of_unbroken hbroken]
              rfl
            · intro fuel place other hother
              rw [htake' fuel ⟨.next token place other, count⟩ htest, advance_of_unbroken hother]
              rfl
    | done position => exact absurd htest hend
    | broken error => exact absurd htest hend
  -- the idle reader says what was passed, and the other text shows the same token or its end
  · have hread := hskip ⟨tokens, count⟩ htest
    have hidle := hidle tokens count hsilent
    have hsame {other last left : Tokens} {passed : List Token}
        (hpasses : tokens.Passes passed left) (hother : other.Passes passed last)
        (hlast : last.Resembles left) (fuel : Nat) :
        again fuel ⟨other, count⟩ = againIdle fuel ⟨other, count⟩ := by
      apply hskip'
      rcases hlast.of_passes hpasses hother with hcurrent | hcurrent
      · rw [hcurrent]
        exact htest
      · rw [hcurrent]
        exact hend
    constructor
    · intro result left hvalue
      rw [hread] at hvalue
      obtain ⟨passed, hpasses, hagain⟩ := hidle.value hvalue
      refine ⟨passed, hpasses, fun hfuel hother hlast => ?_⟩
      rw [hsame hpasses hother hlast]
      exact hagain hfuel hother hlast
    · intro error found hfault hshown
      rw [hread] at hfault
      obtain ⟨passed, left, hpasses, hcurrent, hplace, hagain⟩ := hidle.fault hfault hshown
      refine ⟨passed, left, hpasses, hcurrent, hplace, fun hfuel hother => ⟨?_, ?_⟩⟩
      · intro hlast
        rw [hsame hpasses hother (.inl (hlast.trans hcurrent.symm))]
        exact (hagain hfuel hother).1 hlast
      · intro position hdone
        rw [hsame hpasses hother (.inr (congrArg Tokens.current hdone))]
        exact (hagain hfuel hother).2 position hdone

/-- A reader that passes the token in view if it is an operator of some kind. -/
theorem echoes_current (op? : Token → Option β) {next : Token → Reader α} {idle : Reader α}
    {taken : β → Reader α} {again : Token → Nat → Reader α} {againIdle : Nat → Reader α}
    {againTaken : β → Nat → Reader α} (hend : op? .endOfText = none)
    (hidle : Echoes idle spare againIdle)
    (htaken : ∀ op, Echoes (taken op) (spare + 4) (againTaken op))
    (hskip : ∀ token, op? token = none → next token = idle ∧ again token = againIdle)
    (htake : ∀ token op, op? token = some op →
      next token = (advance >>= fun _ => taken op) ∧
        again token = fun fuel => advance >>= fun _ => againTaken op fuel) :
    Echoes (current >>= next) spare fun fuel => current >>= fun token => again token fuel := by
  have htaken' : ∀ token, op? token ≠ none →
      Echoes ((op? token).elim idle taken) (spare + 4) ((op? token).elim againIdle againTaken) := by
    intro token htoken
    obtain ⟨op, hop⟩ := Option.ne_none_iff_exists'.mp htoken
    rw [hop]
    exact htaken op
  refine echoes_look (op? · ≠ none) (fun hsome => hsome hend) hidle htaken' ?_ ?_ ?_ ?_
  · intro input hnone
    exact congrFun (hskip _ (not_not.mp hnone)).1 input
  · intro input hsome
    obtain ⟨op, hop⟩ := Option.ne_none_iff_exists'.mp hsome
    rw [hop]
    exact congrFun (htake _ op hop).1 input
  · intro fuel input hnone
    exact congrFun (congrFun (hskip _ (not_not.mp hnone)).2 fuel) input
  · intro fuel input hsome
    obtain ⟨op, hop⟩ := Option.ne_none_iff_exists'.mp hsome
    rw [hop]
    exact congrFun (congrFun (htake _ op hop).2 fuel) input

/-- A reader that passes the token in view and then fails on it does so whatever
comes next, also at the end of the text. -/
theorem exists_error_of_advance {again : Token → Reader α} {token : Token} {fault : Fault}
    (hfail : again token = fail fault) (count : Nat) {tokens : Tokens}
    (htokens : tokens.current = token) :
    ∃ failure, (advance >>= again) ⟨tokens, count⟩ = .error failure := by
  subst htokens
  cases tokens with
  | next token position rest =>
      cases hrest : rest.isBroken with
      | true =>
          cases rest with
          | broken error => exact ⟨error, rfl⟩
          | _ => cases hrest
      | false =>
          rw [advance_of_unbroken hrest, show again token = fail fault from hfail]
          exact ⟨_, rfl⟩
  | done position =>
      change ∃ failure, again .endOfText ⟨.done position, count⟩ = .error failure
      rw [show again .endOfText = fail fault from hfail]
      exact ⟨_, rfl⟩
  | broken error => exact ⟨error, rfl⟩

/-- A reader that passes the token in view, whatever it is, and may find only then
that it is none of those that it expects. -/
theorem echoes_advance {next : Token → Reader α} {again : Token → Nat → Reader α}
    (fault : Token → Fault)
    (hfault : ∀ token, (fault token).shown? = none ∨
      (fault token).shown? = some token ∧ (fault token).isLate = true ∧
        (fault token).atEnd = fault .endOfText)
    (hnext : ∀ token, token ≠ .endOfText ∧ Echoes (next token) (spare + 4) (again token) ∨
      next token = fail (fault token) ∧ ∀ fuel, again token fuel = fail (fault token)) :
    Echoes (advance >>= next) spare fun fuel => advance >>= fun token => again token fuel := by
  intro tokens count hsilent
  -- nothing is expected to stand where the text ends
  obtain ⟨hend, hend'⟩ := (hnext .endOfText).resolve_left fun hother => hother.1 rfl
  have hdone (fuel : Nat) (position : Position) :
      (advance >>= fun token => again token fuel) ⟨.done position, count⟩ =
        .error ⟨fault .endOfText, position⟩ := by
    change again .endOfText fuel ⟨.done position, count⟩ = _
    rw [hend']
    rfl
  have hsame {token : Token} (hfail : ∀ fuel, again token fuel = fail (fault token)) (fuel : Nat)
      (other : Tokens) (hother : other.current = token) :
      ∃ failure, (advance >>= fun token => again token fuel) ⟨other, count⟩ = .error failure :=
    exists_error_of_advance (hfail fuel) count hother
  cases tokens with
  | next token position rest =>
      cases hbroken : rest.isBroken with
      | true =>
          cases rest with
          | broken error =>
              have hread : (advance >>= next) ⟨.next token position (.broken error), count⟩ =
                  .error error := rfl
              exact echoesAt_of_silent hread hsilent
          | _ => cases hbroken
      | false =>
          have hread : (advance >>= next) ⟨.next token position rest, count⟩ =
              next token ⟨rest, count⟩ := advance_of_unbroken hbroken count
          rcases hnext token with ⟨_, hechoes⟩ | ⟨hfail, hfail'⟩
          · refine EchoesAt.cons hbroken (hechoes rest count hsilent) ?_ ?_
            · exact advance_of_unbroken hbroken count
            · exact fun fuel place other hother => advance_of_unbroken hother count
          · rw [hfail] at hread
            rcases hfault token with hnone | ⟨hshown, hlate, hatend⟩
            · exact echoesAt_of_silent hread hnone
            · have hplace : (fault token).PlacedIn rest.position (.next token position rest) := by
                rw [Fault.PlacedIn, if_pos hlate]
                exact ⟨hbroken, rfl⟩
              refine echoesAt_of_shown hread hshown hplace (hsame hfail') fun fuel position => ?_
              rw [hdone, hatend]
  | done position =>
      have hread : (advance >>= next) ⟨.done position, count⟩ =
          .error ⟨fault .endOfText, position⟩ := by
        change next .endOfText ⟨.done position, count⟩ = _
        rw [hend]
        rfl
      rcases hfault .endOfText with hnone | ⟨hshown, _, hatend⟩
      · exact echoesAt_of_silent hread hnone
      · refine echoesAt_of_shown hread hshown rfl (hsame hend') fun fuel position => ?_
        rw [hdone, hatend]
  | broken error =>
      have hread : (advance >>= next) ⟨.broken error, count⟩ = .error error := rfl
      exact echoesAt_of_silent hread hsilent

/-- Only what the first reader does with its input matters. -/
theorem bind_congr_input {first other : Reader α} {input : Input}
    (hsame : first input = other input) (next : α → Reader β) :
    (first >>= next) input = (other >>= next) input := by
  change (first input).bind _ = (other input).bind _
  rw [hsame]

theorem echoes_eat {symbol : Symbol} {next : Bool → Reader α} {again : Bool → Nat → Reader α}
    (htrue : Echoes (next true) (spare + 4) (again true))
    (hfalse : Echoes (next false) spare (again false)) :
    Echoes (eat symbol >>= next) spare
      fun fuel => eat symbol >>= fun eaten => again eaten fuel := by
  have heaten {after : Bool → Reader α} {input : Input}
      (hcurrent : input.tokens.current = .symbol symbol) :
      (eat symbol >>= after) input = (advance >>= fun _ => after true) input := by
    rw [bind_congr_input (eat_of_eq hcurrent), bind_assoc]
    simp only [pure_bind]
  refine echoes_look (· = .symbol symbol) nofun hfalse (fun _ _ => htrue) ?_ ?_ ?_ ?_
  · exact fun input hcurrent => bind_eq_of_ok (eat_of_ne hcurrent)
  · exact fun input hcurrent => heaten hcurrent
  · exact fun fuel input hcurrent => bind_eq_of_ok (eat_of_ne hcurrent)
  · exact fun fuel input hcurrent => heaten hcurrent

theorem placedIn_of_not_late {fault : Fault} (hfault : fault.isLate = false) (tokens : Tokens) :
    fault.PlacedIn tokens.position tokens := by
  cases tokens <;> simp [Fault.PlacedIn, Tokens.position, hfault]

/-- A fault that shows the token in view, found before it is passed. -/
theorem echoes_fail_shown {fault : Token → Fault}
    (hshown : ∀ token, (fault token).shown? = some token)
    (hlate : ∀ token, (fault token).isLate = false)
    (hend : ∀ token, (fault token).atEnd = fault .endOfText) :
    Echoes (current >>= fun token => (fail (fault token) : Reader α)) spare
      fun _ => current >>= fun token => fail (fault token) := by
  intro tokens count _
  have hread (other : Tokens) :
      (current >>= fun token => (fail (fault token) : Reader α)) ⟨other, count⟩ =
        .error ⟨fault other.current, other.position⟩ := rfl
  refine echoesAt_of_shown (hread tokens) (hshown _) (placedIn_of_not_late (hlate _) tokens)
    (fun _ other _ => ⟨_, hread other⟩) ?_
  intro _ position
  rw [hread, hend]
  rfl

theorem echoes_expect (symbol : Symbol) :
    Echoes (expect symbol) spare fun _ => expect symbol := by
  apply echoes_eat
  · exact echoes_pure ()
  · exact echoes_fail_shown (fun _ => rfl) (fun _ => rfl) fun _ => rfl

end Combinators

theorem echoes_placeholderOr (name : String) {spare : Nat} :
    Echoes (placeholderOr name) spare fun _ => placeholderOr name := by
  have hread (tokens : Tokens) (count : Nat) : placeholderOr name ⟨tokens, count⟩ =
      .ok (writtenVar count name, ⟨tokens, count + placeholders [.variable name]⟩) := by
    rw [placeholderOr, writtenVar]
    split <;> simp [placeholders, Token.isPlaceholder, *]
  intro tokens count _
  constructor
  · intro result left hvalue
    rw [hread] at hvalue
    cases hvalue
    refine ⟨[], .nil tokens, fun _ hpasses _ => ?_⟩
    rw [hpasses.eq_of_nil, hread]
  · intro error found hfault
    rw [hread] at hfault
    cases hfault

theorem echoes_negative {spare : Nat} : Echoes negative spare fun _ => negative := by
  refine echoes_advance (fun _ => .expectedNumber) (fun _ => .inl rfl) fun token => ?_
  cases token with
  | number value => exact .inl ⟨nofun, echoes_pure _⟩
  | _ => exact .inr ⟨rfl, fun _ => rfl⟩

mutual

theorem echoes_arg (fuel : Nat) : Echoes (arg fuel) 1 arg := by
  cases fuel with
  | zero => exact echoes_fail rfl arg
  | succ fuel =>
      apply Echoes.of_succ
      simp only [arg]
      refine echoes_advance .expectedTerm (fun _ => .inr ⟨rfl, rfl, rfl⟩) fun token => ?_
      rcases token with name | name | value | text | mark | _
      · exact .inl ⟨nofun, (echoes_compound fuel _ _).mono (by omega)⟩
      · exact .inl ⟨nofun, (echoes_placeholderOr name).bind fun _ => echoes_pure _⟩
      · exact .inl ⟨nofun, echoes_pure _⟩
      · exact .inl ⟨nofun, (echoes_compound fuel _ _).mono (by omega)⟩
      · cases mark with
        | minus => exact .inl ⟨nofun, echoes_negative.bind fun _ => echoes_pure _⟩
        | leftBracket => exact .inl ⟨nofun, (echoes_list fuel).mono (by omega)⟩
        | _ => exact .inr ⟨rfl, fun _ => rfl⟩
      · exact .inr ⟨rfl, fun _ => rfl⟩

theorem echoes_compound (fuel : Nat) (functor : String) (plain : Term) :
    Echoes (compound fuel functor plain) 3 fun fuel => compound fuel functor plain := by
  cases fuel with
  | zero => exact echoes_fail rfl _
  | succ fuel =>
      apply Echoes.of_succ
      simp only [compound]
      apply echoes_eat
      · apply echoes_eat
        · exact echoes_pure _
        · refine ((echoes_args fuel).mono (by omega)).bind fun _ => ?_
          exact (echoes_expect .rightParen).bind fun _ => echoes_pure _
      · exact echoes_pure plain

theorem echoes_list (fuel : Nat) : Echoes (list fuel) 3 list := by
  cases fuel with
  | zero => exact echoes_fail rfl list
  | succ fuel =>
      apply Echoes.of_succ
      simp only [list]
      apply echoes_eat
      · exact echoes_pure _
      · refine (echoes_args fuel).bind fun _ => ?_
        apply echoes_eat
        · refine ((echoes_arg fuel).mono (by omega)).bind fun _ => ?_
          exact (echoes_expect .rightBracket).bind fun _ => echoes_pure _
        · refine (echoes_pure Term.emptyList).bind fun _ => ?_
          exact (echoes_expect .rightBracket).bind fun _ => echoes_pure _

theorem echoes_args (fuel : Nat) : Echoes (args fuel) 2 args := by
  cases fuel with
  | zero => exact echoes_fail rfl args
  | succ fuel =>
      apply Echoes.of_succ
      simp only [args]
      refine (echoes_arg fuel).bind fun first => ?_
      apply echoes_eat
      · exact ((echoes_args fuel).mono (by omega)).bind fun _ => echoes_pure _
      · exact echoes_pure _

end

mutual

theorem echoes_expr (fuel : Nat) : Echoes (expr fuel) 3 expr := by
  cases fuel with
  | zero => exact echoes_fail rfl expr
  | succ fuel =>
      apply Echoes.of_succ
      simp only [expr]
      exact (echoes_product fuel).bind fun first => (echoes_moreSums fuel _).mono (by omega)

theorem echoes_moreSums (fuel : Nat) (sum : Expr) :
    Echoes (moreSums fuel sum) 1 fun fuel => moreSums fuel sum := by
  cases fuel with
  | zero => exact echoes_fail rfl _
  | succ fuel =>
      apply Echoes.of_succ
      simp only [moreSums]
      refine echoes_current sumOp? rfl (echoes_pure sum)
        (fun op => ((echoes_product fuel).mono (by omega)).bind fun right =>
          (echoes_moreSums fuel (extendSum sum op right)).mono (by omega))
        (fun token hop => ?_) fun token op hop => ?_
      · simp only [hop, true_and]
      · simp only [hop, true_and]

theorem echoes_product (fuel : Nat) : Echoes (product fuel) 2 product := by
  cases fuel with
  | zero => exact echoes_fail rfl product
  | succ fuel =>
      apply Echoes.of_succ
      simp only [product]
      exact (echoes_factor fuel).bind fun first => echoes_moreProducts fuel _

theorem echoes_moreProducts (fuel : Nat) (sofar : Product) :
    Echoes (moreProducts fuel sofar) 1 fun fuel => moreProducts fuel sofar := by
  cases fuel with
  | zero => exact echoes_fail rfl _
  | succ fuel =>
      apply Echoes.of_succ
      simp only [moreProducts]
      refine echoes_current productOp? rfl (echoes_pure sofar)
        (fun op => ((echoes_factor fuel).mono (by omega)).bind fun right =>
          (echoes_moreProducts fuel (extendProduct sofar op right)).mono (by omega))
        (fun token hop => ?_) fun token op hop => ?_
      · simp only [hop, true_and]
      · simp only [hop, true_and]

theorem echoes_factor (fuel : Nat) : Echoes (factor fuel) 1 factor := by
  cases fuel with
  | zero => exact echoes_fail rfl factor
  | succ fuel =>
      apply Echoes.of_succ
      simp only [factor]
      refine echoes_advance .expectedOperand (fun _ => .inr ⟨rfl, rfl, rfl⟩) fun token => ?_
      rcases token with name | name | value | text | mark | _
      · exact .inr ⟨rfl, fun _ => rfl⟩
      · exact .inl ⟨nofun, (echoes_placeholderOr name).bind fun _ => echoes_pure _⟩
      · exact .inl ⟨nofun, echoes_pure _⟩
      · exact .inr ⟨rfl, fun _ => rfl⟩
      · cases mark with
        | minus => exact .inl ⟨nofun, echoes_negative.bind fun _ => echoes_pure _⟩
        | leftParen =>
            refine .inl ⟨nofun, ((echoes_expr fuel).mono (by omega)).bind fun _ => ?_⟩
            exact (echoes_expect .rightParen).bind fun _ => echoes_pure _
        | _ => exact .inr ⟨rfl, fun _ => rfl⟩
      · exact .inr ⟨rfl, fun _ => rfl⟩

end

theorem echoes_seesIs {α : Type} {spare : Nat} {next : Bool → Reader α} {taken : Reader α}
    {again : Bool → Nat → Reader α} {againTaken : Nat → Reader α}
    (htrue : next true = advance >>= fun _ => taken)
    (hagain : again true = fun fuel => advance >>= fun _ => againTaken fuel)
    (htaken : Echoes taken (spare + 4) againTaken)
    (hfalse : Echoes (next false) spare (again false)) :
    Echoes (seesIs >>= next) spare fun fuel => seesIs >>= fun seen => again seen fuel := by
  refine echoes_look (· = .identifier "is") nofun hfalse (fun _ _ => htaken) ?_ ?_ ?_ ?_
  · exact fun input hcurrent => bind_eq_of_ok (seesIs_of_ne hcurrent)
  · intro input hcurrent
    rw [bind_eq_of_ok (seesIs_of_word hcurrent), htrue]
  · exact fun fuel input hcurrent => bind_eq_of_ok (seesIs_of_ne hcurrent)
  · intro fuel input hcurrent
    rw [bind_eq_of_ok (seesIs_of_word hcurrent), hagain]

theorem echoes_goalAfter (fuel : Nat) (left : Term) :
    Echoes (goalAfter fuel left) 1 fun fuel => goalAfter fuel left := by
  simp only [goalAfter]
  apply echoes_eat
  · exact ((echoes_arg fuel).mono (by omega)).bind fun _ => echoes_pure _
  · cases hfact : factOfTerm? left with
    | none => exact echoes_fail rfl _
    | some fact => exact echoes_pure _

theorem echoes_goal (fuel : Nat) : Echoes (goal fuel) 1 goal := by
  unfold goal
  refine (echoes_arg fuel).bind fun left => ?_
  cases left with
  | var target =>
      refine echoes_seesIs rfl rfl ?_ (echoes_goalAfter fuel _)
      exact ((echoes_expr fuel).mono (by omega)).bind fun _ => echoes_pure _
  | _ => exact echoes_goalAfter fuel _

/-- The fuel for each goal may exceed the number of goals. -/
theorem echoes_goals (fuel count extra : Nat) :
    Echoes (goals fuel count) 2 fun count => goals (count + extra) count := by
  induction count generalizing extra with
  | zero => exact echoes_fail rfl _
  | succ count ih =>
      apply Echoes.of_succ
      simp only [goals, Nat.add_assoc]
      refine ((echoes_goal fuel).add (1 + extra)).bind fun first => ?_
      apply echoes_eat
      · exact ((ih (1 + extra)).mono (by omega)).bind fun _ => echoes_pure _
      · exact echoes_pure _

theorem echoes_head (fuel : Nat) : Echoes (head fuel) 1 head := by
  unfold head
  refine (echoes_arg fuel).bind fun term => ?_
  cases hfact : factOfTerm? term with
  | none => exact echoes_fail rfl _
  | some fact => exact echoes_pure _

theorem echoes_statement (fuel : Nat) : Echoes (statement fuel) 2 statement := by
  unfold statement
  apply echoes_eat
  · refine ((echoes_goals fuel fuel 0).mono (by omega)).bind fun _ => ?_
    apply echoes_eat
    · exact echoes_pure _
    · exact echoes_pure _
  · refine ((echoes_head fuel).mono (by omega)).bind fun _ => ?_
    apply echoes_eat
    · refine ((echoes_goals fuel fuel 0).mono (by omega)).bind fun _ => ?_
      exact (echoes_expect .dot).bind fun _ => echoes_pure _
    · exact (echoes_expect .dot).bind fun _ => echoes_pure _

theorem echoes_settingValue {spare : Nat} : Echoes settingValue spare fun _ => settingValue := by
  refine echoes_advance (fun _ => .expectedSettingValue) (fun _ => .inl rfl) fun token => ?_
  cases token with
  | identifier | string | number => exact .inl ⟨nofun, echoes_pure _⟩
  | _ => exact .inr ⟨rfl, fun _ => rfl⟩

theorem echoes_directiveNamed (spare : Nat) (name : String) :
    Echoes (directiveNamed name) spare fun _ => directiveNamed name := by
  unfold directiveNamed
  split
  · refine echoes_advance (fun _ => .expectedPath) (fun _ => .inl rfl) fun token => ?_
    cases token with
    | string path => exact .inl ⟨nofun, echoes_pure _⟩
    | _ => exact .inr ⟨rfl, fun _ => rfl⟩
  split
  · refine echoes_advance (fun _ => .expectedSetting) (fun _ => .inl rfl) fun token => ?_
    cases token with
    | identifier key => exact .inl ⟨nofun, echoes_settingValue.bind fun _ => echoes_pure _⟩
    | _ => exact .inr ⟨rfl, fun _ => rfl⟩
  split
  · exact echoes_pure _
  split
  · exact echoes_pure _
  · exact echoes_fail rfl _

/-- The name of a directive. -/
def directiveName? : Token → Option String
  | .identifier name => some name
  | _ => none

theorem echoes_directive {spare : Nat} : Echoes directive spare fun _ => directive := by
  have hidle : Echoes (fail .expectedDirective) spare
      fun _ => (fail .expectedDirective : Reader Directive) :=
    echoes_fail rfl _
  refine (echoes_expect .colon).bind fun _ => ?_
  refine echoes_current directiveName? rfl hidle (echoes_directiveNamed _)
    (fun token hname => ?_) ?_
  · cases token with
    | identifier name => cases hname
    | _ => exact ⟨rfl, rfl⟩
  · intro token name hname
    cases token with
    | identifier found =>
        cases hname
        exact ⟨rfl, rfl⟩
    | _ => cases hname

end Reader

end Horn
