/-
Where a text goes wrong.  A parse error that shows a token has found it at the
first place where the text cannot be continued to one that is accepted: what
stands in front of it could end there or go on, and no text that starts with it
and this token is accepted.  The error is placed at this token if it is noticed
before the token is passed, and at the token that follows if it is noticed after
that.
-/
import Horn.Proofs.Lookahead
import Horn.Proofs.Placeholders
import Horn.Proofs.TokenPlaces

namespace Horn

theorem Tokens.Passes.length_eq {tokens left : Tokens} {passed : List Token}
    (hpasses : tokens.Passes passed left) : tokens.length = passed.length + left.length := by
  induction hpasses with
  | nil tokens => simp
  | next hrest hpasses ih =>
      rw [Tokens.length, ih, List.length_cons]
      omega

theorem Tokens.Passes.current_eq {tokens other left last : Tokens} {passed : List Token}
    (hpasses : tokens.Passes passed left) (hother : other.Passes passed last)
    (hlast : last.current = left.current) : other.current = tokens.current := by
  cases hpasses with
  | nil =>
      cases hother
      exact hlast
  | next =>
      cases hother
      rfl

namespace Reader

/-- A reader may be done at the end of a text where a token was shown. -/
abbrev MayEnd {α : Type} (error : ParseError) (position : Position)
    (result : Except ParseError (α × Input)) : Prop :=
  (∃ value, result = .ok value) ∨ LacksToken error position result

/-- Readers that read up to the end of a text fault at the same tokens in texts that
start alike. -/
def EndsAlike {α : Type} (reader : Reader α) (spare : Nat) (again : Nat → Reader α) : Prop :=
  ∀ tokens count, tokens.Silent → FaultsAt MayEnd reader spare again tokens count

section Combinators

variable {α β : Type} {spare more : Nat}

theorem EndsAlike.bindAt {first : Reader α} {next : α → Reader β} {again : Nat → Reader α}
    {againNext : α → Nat → Reader β} {tokens : Tokens} {count : Nat} (hsilent : tokens.Silent)
    (hfirst : Echoes first spare again)
    (hnext : ∀ value, EndsAlike (next value) more (againNext value))
    (hmore : ∀ {value left passed}, first ⟨tokens, count⟩ = .ok (value, left) →
      tokens.Passes passed left.tokens → more ≤ 4 * passed.length + spare) :
    FaultsAt MayEnd (first >>= next) spare
      (fun fuel => again fuel >>= fun value => againNext value fuel) tokens count := by
  have hechoes := hfirst tokens count hsilent
  refine FaultsAt.bind .inr hechoes (fun hread => ?_) hmore
  obtain ⟨passed, hpasses, _⟩ := hechoes.value hread
  exact hnext _ _ _ (hpasses.silent hsilent)

theorem EndsAlike.map {reader : Reader α} {again : Nat → Reader α}
    (hreader : EndsAlike reader spare again) (f : α → β) :
    EndsAlike (reader >>= fun value => pure (f value)) spare
      fun fuel => again fuel >>= fun value => pure (f value) := by
  intro tokens count hsilent error found hread hshown
  cases hfirst : reader ⟨tokens, count⟩ with
  | ok result =>
      rw [bind_eq_of_ok hfirst] at hread
      cases hread
  | error failure =>
      rw [bind_eq_of_error hfirst] at hread
      cases hread
      obtain ⟨passed, left, hpasses, hcurrent, hplace, hagain⟩ :=
        hreader tokens count hsilent hfirst hshown
      refine ⟨passed, left, hpasses, hcurrent, hplace, fun hfuel hother => ?_⟩
      obtain ⟨hfound, hend⟩ := hagain hfuel hother
      constructor
      · intro hlast
        obtain ⟨failure, hfailure⟩ := hfound hlast
        exact ⟨failure, bind_eq_of_error hfailure⟩
      · intro position hdone
        rcases hend position hdone with ⟨⟨value, rest⟩, hvalue⟩ | hfailure
        · exact .inl ⟨_, bind_eq_of_ok hvalue⟩
        · exact .inr (bind_eq_of_error hfailure)

/-- A loop over the items of a text, which ends with the text. -/
structure Loops (loop : Nat → Nat → Reader (List α)) (item : Token → Nat → Reader α) : Prop where
  zero (fuel : Nat) : loop fuel 0 = fail .tooDeep
  done {input : Input} (fuel count : Nat) : input.tokens.current = .endOfText →
    loop fuel (count + 1) input = .ok ([], input)
  item {input : Input} (fuel count : Nat) : input.tokens.current ≠ .endOfText →
    loop fuel (count + 1) input =
      (item input.tokens.current fuel >>= fun first => loop fuel count >>= fun rest =>
        pure (first :: rest)) input

/-- Items are not empty. -/
def Consumes (reader : Reader α) : Prop :=
  ∀ {input left : Input} {result : α}, reader input = .ok (result, left) →
    left.tokens.length < input.tokens.length

theorem Loops.endsAlike {loop : Nat → Nat → Reader (List α)} {item : Token → Nat → Reader α}
    (hloop : Loops loop item) (hechoes : ∀ token fuel, Echoes (item token fuel) 2 (item token))
    (hconsumes : ∀ token fuel, Consumes (item token fuel)) (fuel count extra : Nat) :
    EndsAlike (loop fuel count) 4 fun count => loop (count + extra) count := by
  induction count generalizing extra with
  | zero =>
      intro tokens start _ error found hread hshown
      rw [hloop.zero] at hread
      cases hread
      cases hshown
  | succ count ih =>
      intro tokens start hsilent error found hread hshown
      by_cases hend : tokens.current = .endOfText
      · rw [hloop.done fuel count hend] at hread
        cases hread
      rw [hloop.item fuel count hend] at hread
      have hnext (first : α) := (ih (1 + extra)).map (first :: ·)
      -- an item that was read has passed a token, which pays for the loop's own step
      have hspare {first : α} {left : Input} {passed : List Token}
          (hfirst : item tokens.current fuel ⟨tokens, start⟩ = .ok (first, left))
          (hpasses : tokens.Passes passed left.tokens) : 4 ≤ 4 * passed.length + 3 := by
        have hlength := hpasses.length_eq
        have hless : left.tokens.length < tokens.length := hconsumes _ _ hfirst
        omega
      have hitem := (hechoes tokens.current fuel).mono (show 2 ≤ 3 by omega)
      obtain ⟨passed, left, hpasses, hcurrent, hplace, hagain⟩ :=
        EndsAlike.bindAt hsilent (hitem.add (1 + extra)) hnext hspare hread hshown
      refine ⟨passed, left, hpasses, hcurrent, hplace, fun {more other last} hfuel hother => ?_⟩
      obtain ⟨more, rfl⟩ : ∃ less, more = less + 1 := Nat.exists_eq_add_one_of_ne_zero (by omega)
      have hsame (hother : other.current = tokens.current) :
          loop (more + 1 + extra) (more + 1) ⟨other, start⟩ =
            (item tokens.current (more + (1 + extra)) >>= fun first =>
              loop (more + (1 + extra)) more >>= fun rest => pure (first :: rest))
                ⟨other, start⟩ := by
        rw [Nat.add_assoc, hloop.item _ _ (by rw [hother]; exact hend), hother]
      obtain ⟨hfound, hdone⟩ := hagain (show 4 * passed.length + 3 ≤ more by omega) hother
      dsimp only
      constructor
      · intro hlast
        rw [hsame (hpasses.current_eq hother (hlast.trans hcurrent.symm))]
        exact hfound hlast
      · intro position hlast
        have hresembles := Tokens.Resembles.of_passes (.inr (congrArg Tokens.current hlast)) hpasses
          hother
        rcases hresembles with hother | hother
        · rw [hsame hother]
          exact hdone position hlast
        · exact .inl ⟨_, hloop.done _ _ hother⟩

end Combinators

theorem length_lt_of_passes {input left : Input} {passed : List Token}
    (hpasses : input.Passes passed left) (hpassed : passed ≠ []) :
    left.tokens.length < input.tokens.length := by
  have hlength := hpasses.tokens.length_eq
  have hpos := List.length_pos_of_ne_nil hpassed
  omega

theorem consumes_statement (fuel : Nat) : Consumes (statement fuel) := by
  intro input left result hread
  obtain ⟨tree, hpasses, _⟩ := statement_sound hread
  obtain ⟨token, more, htokens, _⟩ := tree.exists_cons []
  rw [List.append_nil] at htokens
  rw [htokens] at hpasses
  exact length_lt_of_passes hpasses (List.cons_ne_nil token more)

theorem consumes_directive : Consumes directive := by
  intro input left result hread
  obtain ⟨passed, hpasses, _⟩ := directive_sound hread
  exact length_lt_of_passes hpasses (List.cons_ne_nil _ passed)

theorem Consumes.map {α β : Type} {reader : Reader α} (hreader : Consumes reader) (f : α → β) :
    Consumes (reader >>= fun value => pure (f value)) := by
  intro input left result hread
  obtain ⟨value, mid, hvalue, hlast⟩ := exists_of_bind_ok hread
  cases hlast
  exact hreader hvalue

/-- An item of a text, which starts with a colon if it is a directive. -/
def itemOr {α : Type} (directive : Reader α) (statement : Nat → Reader α) :
    Token → Nat → Reader α
  | .symbol .colon, _ => directive
  | _, fuel => statement fuel

section Items

variable {α : Type} {directive : Reader α} {statement : Nat → Reader α}

theorem itemOr_of_ne {token : Token} (htoken : token ≠ .symbol .colon) (fuel : Nat) :
    itemOr directive statement token fuel = statement fuel := by
  unfold itemOr
  split
  · exact absurd rfl htoken
  · rfl

theorem echoes_itemOr (hdirective : Echoes directive 2 fun _ => directive)
    (hstatement : ∀ fuel, Echoes (statement fuel) 2 statement) (token : Token) (fuel : Nat) :
    Echoes (itemOr directive statement token fuel) 2 (itemOr directive statement token) := by
  by_cases hcolon : token = .symbol .colon
  · subst hcolon
    exact hdirective
  · have hagain : itemOr directive statement token = statement :=
      funext fun fuel => itemOr_of_ne hcolon fuel
    rw [hagain]
    exact hstatement fuel

theorem consumes_itemOr (hdirective : Consumes directive)
    (hstatement : ∀ fuel, Consumes (statement fuel)) (token : Token) (fuel : Nat) :
    Consumes (itemOr directive statement token fuel) := by
  by_cases hcolon : token = .symbol .colon
  · subst hcolon
    exact hdirective
  · rw [itemOr_of_ne hcolon]
    exact hstatement fuel

end Items

theorem loops_statements : Loops statements (itemOr (fail .directiveInProgram) statement) where
  zero fuel := rfl
  done fuel count hend := by
    rw [statements, bind_eq_of_ok (atEnd_of_eq hend)]
    rfl
  item {input} fuel count hend := by
    by_cases hcolon : input.tokens.current = .symbol .colon
    · rw [hcolon, statements, bind_eq_of_ok (atEnd_of_ne hend), if_neg Bool.false_ne_true,
        bind_eq_of_ok (sees_of_eq hcolon)]
      rfl
    · rw [statements_of_statement hend hcolon, itemOr_of_ne hcolon]

theorem loops_commands : Loops commands
    (itemOr (directive >>= fun first => pure (.directive first))
      fun fuel => statement fuel >>= fun first => pure (.statement first)) where
  zero fuel := rfl
  done fuel count hend := by
    rw [commands, bind_eq_of_ok (atEnd_of_eq hend)]
    rfl
  item {input} fuel count hend := by
    by_cases hcolon : input.tokens.current = .symbol .colon
    · rw [commands_of_colon hcolon, hcolon, itemOr, bind_assoc]
      simp only [pure_bind]
    · rw [commands_of_statement hend hcolon, itemOr_of_ne hcolon, bind_assoc]
      simp only [pure_bind]

theorem endsAlike_statements (fuel : Nat) :
    EndsAlike (statements fuel fuel) 4 fun fuel => statements fuel fuel := by
  refine loops_statements.endsAlike (echoes_itemOr (echoes_fail rfl _) echoes_statement) ?_
    fuel fuel 0
  refine consumes_itemOr (fun hread => ?_) consumes_statement
  cases hread

theorem endsAlike_commands (fuel : Nat) :
    EndsAlike (commands fuel fuel) 4 fun fuel => commands fuel fuel := by
  refine loops_commands.endsAlike ?_ ?_ fuel fuel 0
  · exact echoes_itemOr (echoes_directive.bind fun _ => echoes_pure _)
      fun fuel => (echoes_statement fuel).bind fun _ => echoes_pure _
  · exact consumes_itemOr (Consumes.map consumes_directive _)
      fun fuel => Consumes.map (consumes_statement fuel) _

theorem echoes_eat_alone (symbol : Symbol) {spare : Nat} :
    Echoes (eat symbol) spare fun _ => eat symbol := by
  have heat : Echoes (eat symbol >>= pure) spare fun _ => eat symbol >>= pure :=
    echoes_eat (echoes_pure true) (echoes_pure false)
  simpa only [bind_pure] using heat

/-- What follows a query has to be the end of its text. -/
theorem endsAlike_atEnd {α : Type} (value : α) (spare : Nat) :
    EndsAlike (atEnd >>= fun ended => if ended then pure value
        else current >>= fun found => fail (.textAfterQuery found)) spare
      fun _ => atEnd >>= fun ended => if ended then pure value
        else current >>= fun found => fail (.textAfterQuery found) := by
  intro tokens count _ error found hread hshown
  by_cases hend : tokens.current = .endOfText
  · rw [bind_eq_of_ok (atEnd_of_eq hend)] at hread
    cases hread
  rw [bind_eq_of_ok (atEnd_of_ne hend)] at hread
  cases hread
  cases hshown
  refine ⟨[], tokens, .nil tokens, rfl, placedIn_of_not_late rfl tokens, ?_⟩
  intro fuel other last _ hother
  obtain rfl := hother.eq_of_nil
  constructor
  · intro hlast
    have hne : last.current ≠ .endOfText := hlast ▸ hend
    exact ⟨_, bind_eq_of_ok (atEnd_of_ne hne)⟩
  · rintro position rfl
    exact .inl ⟨_, bind_eq_of_ok (atEnd_of_eq rfl)⟩

theorem endsAlike_query (fuel : Nat) : EndsAlike (query fuel) 4 query := by
  have hbind {α β : Type} {first : Reader α} {next : α → Reader β} {again : Nat → Reader α}
      {againNext : α → Nat → Reader β} (hfirst : Echoes first 4 again)
      (hnext : ∀ value, EndsAlike (next value) 4 (againNext value)) :
      EndsAlike (first >>= next) 4 fun fuel => again fuel >>= fun value => againNext value fuel :=
    fun tokens count hsilent => EndsAlike.bindAt hsilent hfirst hnext
      fun _ _ => Nat.le_add_left ..
  unfold query
  refine hbind (echoes_eat_alone .query) fun _ => ?_
  refine hbind ((echoes_goals fuel fuel 0).mono (by omega)) fun goals => ?_
  exact hbind (echoes_eat_alone .dot) fun _ => endsAlike_atEnd goals 4

end Reader

theorem scanToken_error {cursor : Cursor} {c : Char} {text : List Char} {error : ParseError}
    (hscan : scanToken cursor c text = .error error) : error.fault.shown? = none := by
  grind [scanToken, Fault.shown?]

theorem Tokens.silent_scan (position : Position) (text : List Char) :
    (Tokens.scan position text).Silent := by
  fun_induction Tokens.scan position text with
  | case1 => trivial
  | case2 position text cursor c rest hrest error hscan => exact scanToken_error hscan
  | case3 position text cursor c rest hrest scan hscan ih => exact ih

theorem Tokens.Passes.isBroken_eq {tokens left : Tokens} {passed : List Token}
    (hpasses : tokens.Passes passed left) (htokens : tokens.isBroken = false) :
    left.isBroken = false := by
  induction hpasses with
  | nil tokens => exact htokens
  | next hrest hpasses ih => exact ih hrest

section ReadText

variable {α : Type} {reader : Nat → Reader α} {text : String}

/-- A text whose first token is at fault is not read. -/
theorem readText_of_fault {error : ParseError} (htokens : Tokens.ofString text = .broken error) :
    readText reader text = .error error := by
  rw [readText, htokens]

theorem readText_of_unbroken (hunbroken : (Tokens.ofString text).isBroken = false) :
    readText reader text =
      (reader (4 * (Tokens.ofString text).length + 4) ⟨Tokens.ofString text, 0⟩).map Prod.fst := by
  rw [readText]
  cases htokens : Tokens.ofString text with
  | broken error =>
      rw [htokens] at hunbroken
      cases hunbroken
  | _ =>
      dsimp only
      cases reader _ ⟨_, 0⟩ <;> rfl

/-- An error that shows a token is not one of the text itself. -/
theorem of_readText_shown {error : ParseError} {found : Token}
    (hread : readText reader text = .error error) (hshown : error.fault.shown? = some found) :
    (Tokens.ofString text).isBroken = false ∧
      reader (4 * (Tokens.ofString text).length + 4) ⟨Tokens.ofString text, 0⟩ =
        .error error := by
  have hsilent := Tokens.silent_scan Position.start text.toList
  have hunbroken : (Tokens.ofString text).isBroken = false := by
    cases htokens : Tokens.ofString text with
    | broken failure =>
        rw [readText_of_fault htokens] at hread
        cases hread
        rw [Tokens.ofString] at htokens
        rw [htokens] at hsilent
        cases hsilent.symm.trans hshown
    | _ => rfl
  refine ⟨hunbroken, ?_⟩
  rw [readText_of_unbroken hunbroken] at hread
  cases hresult : reader (4 * (Tokens.ofString text).length + 4) ⟨Tokens.ofString text, 0⟩ with
  | ok result =>
      rw [hresult] at hread
      cases hread
  | error failure =>
      rw [hresult] at hread
      cases hread
      rfl

end ReadText

/-- Where an error is placed that shows the token at the start of some text behind
some other: at this token, or at the one that follows it if its fault is noticed
late.  The end of the text is never passed. -/
inductive Fault.Placed (fault : Fault) (before : List Char) :
    Token → List Char → Position → Prop
  | finish : Placed fault before .endOfText [] (Position.of before)
  | early {found : Token} {spelling : List Char} (behind : List Char)
      (hearly : fault.isLate = false) (hspelled : found.SpelledBy spelling) :
      Placed fault before found (spelling ++ behind) (Position.of before)
  | late {found : Token} {spelling layout behind : List Char} (hlate : fault.isLate = true)
      (hspelled : found.SpelledBy spelling) (hlayout : IsLayout layout)
      (hbehind : StartsToken behind) :
      Placed fault before found (spelling ++ (layout ++ behind))
        (Position.of (before ++ (spelling ++ layout)))

theorem Fault.Placed.eq_of_iff {fault : Fault} {before after : List Char} {found : Token}
    {position : Position} (hplaced : fault.Placed before found after position) :
    position = Position.of before ↔ fault.isLate = false ∨ found = .endOfText := by
  cases hplaced with
  | finish => exact iff_of_true rfl (.inr rfl)
  | early behind hearly => exact iff_of_true rfl (.inl hearly)
  | late hlate hspelled =>
      refine iff_of_false (Position.of_append_ne (by simp [hspelled.ne_nil]) before) ?_
      rintro (hearly | rfl)
      · rw [hlate] at hearly
        cases hearly
      · cases hspelled

/-- The place of the token in view, by the characters. -/
theorem Fault.PlacedIn.placed {fault : Fault} {position : Position} {before after : List Char}
    {left : Tokens} (hplaced : fault.PlacedIn position left) (hunbroken : left.isBroken = false)
    (hleft : left = Tokens.scan (Position.start.afterAll before) after)
    (hstarts : StartsToken after) : fault.Placed before left.current after position := by
  rw [Position.afterAll_start] at hleft
  cases left with
  | next found place rest =>
      obtain ⟨spelling, behind, hskip, hspelled, hrest, _⟩ := Tokens.exists_of_scan_next hleft.symm
      rw [hstarts] at hskip
      obtain ⟨rfl, rfl⟩ := Cursor.mk.inj hskip
      rw [PlacedIn] at hplaced
      split at hplaced
      · next hlate =>
          obtain ⟨hrest', rfl⟩ := hplaced
          rw [hrest] at hrest' ⊢
          obtain ⟨layout, behind, rfl, hlayout, hbehind, hskip'⟩ := exists_layout behind
          rw [Tokens.position_scan hrest', hskip', ← Position.of_append, ← Position.of_append,
            List.append_assoc]
          exact .late hlate hspelled hlayout hbehind
      · next hearly =>
          rw [hplaced]
          exact .early behind (Bool.eq_false_of_not_eq_true hearly) hspelled
  | done place =>
      have hskip := Tokens.skipLayout_of_scan_done hleft.symm
      rw [hstarts] at hskip
      obtain ⟨rfl, rfl⟩ := Cursor.mk.inj hskip
      rw [PlacedIn] at hplaced
      rw [hplaced]
      exact .finish
  | broken error => cases hunbroken

theorem Fault.message_of_shown {fault : Fault} {found : Token}
    (hshown : fault.shown? = some found) :
    ∃ front behind, fault.message = front ++ found.describe ++ behind := by
  cases fault with
  | expectedSymbol | expectedTerm | expectedOperand =>
      cases hshown
      exact ⟨_, "", (String.append_empty).symm⟩
  | textAfterQuery =>
      cases hshown
      exact ⟨_, _, rfl⟩
  | _ => cases hshown

/-- A token is shown at the first place where its text goes wrong.  The text up to
there is accepted, or only lacks something at its end, and no text is accepted
that has the same tokens up to there and then the token that is shown. -/
structure FirstFault {α : Type} (parse : String → Except ParseError α) (error : ParseError)
    (found : Token) (before after : List Char) : Prop where
  message : ∃ front behind, error.fault.message = front ++ found.describe ++ behind
  placed : error.fault.Placed before found after error.position
  place_iff : error.position = Position.of before ↔
    error.fault.isLate = false ∨ found = .endOfText
  cut : (∃ value, parse (String.ofList before) = .ok value) ∨
    parse (String.ofList before) = .error ⟨error.fault.atEnd, Position.of before⟩
  rejected : ∃ passed, (Tokens.ofString (String.ofList before)).toList? = some passed ∧
    ∀ other last, (Tokens.ofString other).Passes passed last → last.current = found →
      ∃ failure, parse other = .error failure

/-- Whatever error about a text shows a token finds the first fault of the text. -/
def FindsFirstFault {α : Type} (parse : String → Except ParseError α) (text : String) : Prop :=
  ∀ error found, parse text = .error error → error.fault.shown? = some found →
    ∃ before after, text.toList = before ++ after ∧ FirstFault parse error found before after

theorem findsFirstFault_of_endsAlike {α : Type} {reader : Nat → Reader α}
    (hreader : ∀ fuel, Reader.EndsAlike (reader fuel) 4 reader) (text : String) :
    FindsFirstFault (readText reader) text := by
  intro error found hread hshown
  obtain ⟨hunbroken, hread⟩ := of_readText_shown hread hshown
  have hsilent := Tokens.silent_scan Position.start text.toList
  obtain ⟨passed, left, hpasses, rfl, hplaced, hagain⟩ := hreader _ _ 0 hsilent hread hshown
  obtain ⟨before, after, htext, hstarts, hleft, hbefore⟩ := Tokens.Passes.exists_split hpasses
  have hplaced := hplaced.placed (Tokens.Passes.isBroken_eq hpasses hunbroken) hleft hstarts
  have hcut : (Tokens.ofString (String.ofList before)).toList? = some passed := by
    rw [Tokens.ofString, String.toList_ofList]
    exact hbefore Position.start
  have hfuel {other : String} {last : Tokens}
      (hother : (Tokens.ofString other).Passes passed last) :
      4 * passed.length + 4 ≤ 4 * (Tokens.ofString other).length + 4 := by
    rw [hother.length_eq]
    omega
  refine ⟨before, after, htext, Fault.message_of_shown hshown, hplaced, hplaced.eq_of_iff, ?_,
    passed, hcut, ?_⟩
  · obtain ⟨place, hdone⟩ := Tokens.toList?_eq_some_iff.mp hcut
    obtain ⟨hunbroken', _⟩ := exists_passes_of_toList? hcut
    have hplace : place = Position.of before := by
      have hdone' := hdone
      rw [Tokens.ofString, String.toList_ofList] at hdone'
      exact hdone'.position_eq
    rw [readText_of_unbroken hunbroken', ← hplace]
    rcases (hagain (hfuel hdone) hdone).2 place rfl with ⟨result, hresult⟩ | hfailure
    · rw [hresult]
      exact .inl ⟨_, rfl⟩
    · rw [hfailure]
      exact .inr rfl
  · intro other last hother hlast
    cases hbroken : (Tokens.ofString other).isBroken with
    | true =>
        cases htokens : Tokens.ofString other with
        | broken failure => exact ⟨failure, readText_of_fault htokens⟩
        | _ =>
            rw [htokens] at hbroken
            cases hbroken
    | false =>
        obtain ⟨failure, hfailure⟩ := (hagain (hfuel hother) hother).1 hlast
        rw [readText_of_unbroken hbroken, hfailure]
        exact ⟨failure, rfl⟩

/-- Whichever way a text is read, an error that shows a token shows the first one
that does not fit, and is placed at this token, or at the next one if the token
stands where a term or an operand is expected. -/
theorem shown_token_is_first_fault (text : String) :
    FindsFirstFault parseProgram text ∧ FindsFirstFault parseQuery text ∧
      FindsFirstFault parseCommands text :=
  ⟨findsFirstFault_of_endsAlike Reader.endsAlike_statements text,
    findsFirstFault_of_endsAlike Reader.endsAlike_query text,
    findsFirstFault_of_endsAlike Reader.endsAlike_commands text⟩

/-- A comma in the place of a term is reported at the parenthesis behind it, though
this stands on the next line. -/
theorem fault_is_placed_behind_token :
    "f(a).\ng(,\n).".toList = "f(a).\ng(".toList ++ ',' :: "\n).".toList ∧
      Position.of "f(a).\ng(".toList = ⟨2, 3⟩ ∧
      (match parseProgram "f(a).\ng(,\n)." with
        | .ok _ => none
        | .error error => some (error.fault.shown?.map Token.describe, error.position)) =
          some (some "Comma", ⟨3, 1⟩) := by
  decide +kernel

end Horn
