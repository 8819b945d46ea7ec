/-
Input that is refused changes nothing.  A text is parsed to its end before any of it is
carried out, a file with a fault is not used at all, and a setting is checked before it
is taken.  So refused input can be left out of a run: the others have the same outcomes.
-/
import Horn.Proofs.ActiveQuery
import Horn.Proofs.FaultyFiles
import Horn.Shell

namespace Horn

section Runs

variable {S I O : Type} (step : S → I → S × O)

/-- The state after some inputs, and the inputs with their outputs. -/
def runThrough (state : S) : List I → S × List (I × O)
  | [] => (state, [])
  | input :: rest =>
      let stepped := step state input
      let later := runThrough stepped.1 rest
      (later.1, (input, stepped.2) :: later.2)

/-- If refused inputs leave the state as it is, a run without them comes to the same
state and gives the same outputs to the others. -/
theorem runThrough_accepted (refused : O → Bool)
    (hrefused : ∀ state input, refused (step state input).2 = true →
      (step state input).1 = state) (state : S) (inputs : List I) :
    let accepted := (runThrough step state inputs).2.filter fun entry => !refused entry.2
    runThrough step state (accepted.map Prod.fst) =
      ((runThrough step state inputs).1, accepted) := by
  induction inputs generalizing state with
  | nil => rfl
  | cons input rest ih =>
      intro accepted
      -- A refused input is missing from the shorter run, which goes on from the same state.
      by_cases hinput : refused (step state input).2 = true
      · have hsame := hrefused state input hinput
        have hrest := ih state
        simp only [accepted, runThrough, List.filter_cons, hinput, hsame, Bool.not_true,
          Bool.false_eq_true, if_false]
        exact hrest
      · have hrest := ih (step state input).1
        simp only [accepted, runThrough, List.filter_cons, hinput, Bool.not_false, if_true,
          List.map_cons, hrest]

end Runs

/-- Errors that refuse an operation, and do not come from a query that was run. -/
def SessionError.refuses : SessionError → Bool
  | .parse _ | .read _ _ | .load _ _ | .unknownOption _ | .invalidValue _ _ => true
  | .resolve _ | .noActiveQuery | .unfinished => false

namespace Session

namespace Operation

/-- What makes an operation unfit for every session that reaches the given files. -/
inductive Unfit (files : Files) : Operation → SessionError → Prop
  | text {text : String} {error : ParseError} (hparse : parseQuery text = .error error) :
      Unfit files (.executeText text) (.parse error)
  | file {path : String} {error : SessionError} (hfile : files.Unloadable path error) :
      Unfit files (.load path) error
  | key {key value : String} (hkey : key ≠ "max_depth") :
      Unfit files (.setOption key value) (.unknownOption key)
  | value {value : String} (hword : ¬ (value = "none" ∨ value = "unlimited"))
      (hnumber : readSettingNumber? value = none) :
      Unfit files (.setOption "max_depth" value) (.invalidValue "max_depth" value)

/-- The outcome of an operation that ends with an error. -/
def refusal (error : SessionError) : Operation → Outcome
  | .execute _ => .executed (.error error)
  | .executeText _ | .next => .replied (.error error)
  | .load _ | .setOption _ _ => .followed (.error error)

end Operation

/-- The error that an operation ended with. -/
def Outcome.error? : Outcome → Option SessionError
  | .executed (.error error) | .replied (.error error) | .followed (.error error) => some error
  | .executed (.ok _) | .replied (.ok _) | .followed (.ok _) => none

@[simp] theorem Outcome.error?_executed_map (result : Except SessionError Reply) :
    (executed (result.map .reply)).error? = (replied result).error? := by
  cases result <;> rfl

/-- Whether an operation was refused. -/
def Outcome.isRefused (outcome : Outcome) : Bool :=
  outcome.error?.any SessionError.refuses

/-- Asking for an answer is never refused. -/
theorem refuses_next {session : Session} {error : SessionError}
    (herror : (Outcome.replied session.next.2).error? = some error) :
    error.refuses = false := by
  rw [next] at herror
  cases hactive : session.active with
  | none =>
      rw [hactive] at herror
      cases herror
      rfl
  | some active =>
      simp only [hactive] at herror
      cases hresult : (session.engine.next active.stream).2.2 <;>
        simp only [hresult] at herror <;> cases herror <;> rfl

theorem refuses_drainUpTo {engine : Engine} {fuel : Nat} {stream : QueryStream}
    {error : SessionError} (herror : (drainUpTo engine fuel stream).2 = some error) :
    error.refuses = false := by
  induction fuel generalizing engine stream with
  | zero =>
      cases herror
      rfl
  | succ fuel ih =>
      rw [drainUpTo] at herror
      cases hresult : (engine.next stream).2.2 with
      | answer found =>
          simp only [hresult] at herror
          exact ih herror
      | _ =>
          simp only [hresult] at herror
          cases herror <;> rfl

theorem refuses_runAll {engine : Engine} {statements : List Statement} {error : SessionError}
    (herror : (runAll engine statements).2 = some error) : error.refuses = false := by
  induction statements generalizing engine with
  | nil => cases herror
  | cons statement statements ih =>
      cases statement with
      | clause clause => exact ih herror
      | query goals =>
          rw [runAll] at herror
          rcases hdrain : drainUpTo engine engine.patience (engine.query goals) with
            ⟨after, _ | failed⟩
          · rw [hdrain] at herror
            exact ih herror
          · rw [hdrain] at herror
            cases herror
            exact refuses_drainUpTo (congrArg Prod.snd hdrain)

/-- An unfit operation is refused, and nothing of the session is different after it. -/
theorem perform_of_unfit {session : Session} {operation : Operation} {error : SessionError}
    (hunfit : operation.Unfit session.engine.env.files error) :
    session.perform operation = (session, operation.refusal error) := by
  cases hunfit with
  | text hparse => simp only [perform, executeText, hparse, Operation.refusal]
  | file hfile =>
      simp only [perform, load, Files.readFile_eq_error_iff.mpr hfile, Operation.refusal]
  | key hkey => simp only [perform, setOption, if_neg hkey, Operation.refusal]
  | value hword hnumber =>
      simp only [perform, setOption, if_true, if_neg hword, hnumber, Operation.refusal]

theorem unfit_of_load {session : Session} {path : String} {error : SessionError}
    (herror : (session.perform (.load path)).2.error? = some error)
    (hrefuses : error.refuses = true) :
    (Operation.load path).Unfit session.engine.env.files error := by
  simp only [perform, load] at herror
  cases hread : readFile session.engine.env.files path with
  | error fault =>
      rw [hread] at herror
      cases herror
      exact .file (Files.readFile_eq_error_iff.mp hread)
  | ok statements =>
      simp only [hread] at herror
      cases hrun : (runAll session.engine statements).2 with
      | none =>
          rw [hrun] at herror
          cases herror
      | some failed =>
          rw [hrun] at herror
          cases herror
          -- the file was read, and what its queries run into is no refusal
          rw [refuses_runAll hrun] at hrefuses
          cases hrefuses

theorem unfit_of_setOption {session : Session} {key value : String} {error : SessionError}
    (herror : (session.perform (.setOption key value)).2.error? = some error) :
    (Operation.setOption key value).Unfit session.engine.env.files error := by
  simp only [perform, setOption] at herror
  by_cases hkey : key = "max_depth"
  · subst hkey
    rw [if_pos rfl] at herror
    by_cases hword : value = "none" ∨ value = "unlimited"
    · rw [if_pos hword] at herror
      cases herror
    · rw [if_neg hword] at herror
      cases hnumber : readSettingNumber? value with
      | some most =>
          rw [hnumber] at herror
          cases herror
      | none =>
          rw [hnumber] at herror
          cases herror
          exact .value hword hnumber
  · rw [if_neg hkey] at herror
    cases herror
    exact .key hkey

/-- Unfit operations are the only ones that are refused. -/
theorem unfit_of_refuses {session : Session} {operation : Operation} {error : SessionError}
    (herror : (session.perform operation).2.error? = some error)
    (hrefuses : error.refuses = true) :
    operation.Unfit session.engine.env.files error := by
  have hnext : ∀ {other : Session}, (Outcome.replied other.next.2).error? ≠ some error := by
    intro other hother
    rw [refuses_next hother] at hrefuses
    cases hrefuses
  cases operation with
  | execute statement =>
      cases statement with
      | clause clause => cases herror
      | query goals =>
          simp only [perform, execute, executeQuery, Outcome.error?_executed_map] at herror
          exact absurd herror hnext
  | executeText text =>
      simp only [perform, executeText] at herror
      cases hparse : parseQuery text with
      | error fault =>
          rw [hparse] at herror
          cases herror
          exact .text hparse
      | ok goals =>
          rw [hparse] at herror
          exact absurd herror hnext
  | next => exact absurd herror hnext
  | load path => exact unfit_of_load herror hrefuses
  | setOption key value => exact unfit_of_setOption herror

theorem perform_of_isRefused {session : Session} {operation : Operation}
    (hrefused : (session.perform operation).2.isRefused = true) :
    (session.perform operation).1 = session := by
  obtain ⟨error, herror, hrefuses⟩ := (Option.any_eq_true ..).mp hrefused
  rw [perform_of_unfit (unfit_of_refuses herror hrefuses)]

theorem runThrough_perform (session : Session) (operations : List Operation) :
    runThrough perform session operations =
      (session.performAll operations, session.log operations) := by
  induction operations generalizing session with
  | nil => rfl
  | cons operation rest ih =>
      rw [runThrough, ih]
      rfl

/-- A session keeps out what it refuses: unfit operations, and no others, are refused
with their error and leave it as it is, so that a run without them comes to the same
session and gives the others the same outcomes. -/
structure KeepsOut (session : Session) : Prop where
  unfit : ∀ (operation : Operation) (error : SessionError),
    operation.Unfit session.engine.env.files error →
      session.perform operation = (session, operation.refusal error)
  refused : ∀ (operation : Operation) (error : SessionError),
    (session.perform operation).2.error? = some error → error.refuses = true →
      operation.Unfit session.engine.env.files error
  run : ∀ operations : List Operation,
    let accepted := (session.log operations).filter fun entry => !entry.2.isRefused
    session.performAll (accepted.map Prod.fst) = session.performAll operations ∧
      session.log (accepted.map Prod.fst) = accepted

theorem keepsOut (session : Session) : session.KeepsOut where
  unfit _ _ := perform_of_unfit
  refused _ _ := unfit_of_refuses
  run operations := by
    have hrun := runThrough_accepted perform Outcome.isRefused
      (fun session operation => perform_of_isRefused) session operations
    simp only [runThrough_perform] at hrun
    exact Prod.mk.inj hrun

end Session

namespace Directive

/-- The operation that a directive asks a session for. -/
def operation? : Directive → Option Session.Operation
  | .load path => some (.load path)
  | .set key value => some (.setOption key value)
  | .next => some .next
  | .quit => none

end Directive

theorem Session.eq_quit_of_follow {session after : Session} {directive : Directive}
    (hfollow : session.follow directive = (after, .ok .quit)) :
    directive = .quit ∧ after = session := by
  cases directive with
  | quit =>
      cases hfollow
      exact ⟨rfl, rfl⟩
  | load path =>
      simp only [follow, load] at hfollow
      cases hread : readFile session.engine.env.files path with
      | error fault =>
          rw [hread] at hfollow
          cases hfollow
      | ok statements =>
          simp only [hread] at hfollow
          cases hrun : (runAll session.engine statements).2 <;> rw [hrun] at hfollow <;>
            cases hfollow
  | set key value =>
      obtain ⟨error, hset⟩ | hset := setOption_eq_or key value <;>
        · rw [follow, hset] at hfollow
          cases hfollow
  | next =>
      simp only [follow] at hfollow
      cases hnext : session.next.2 <;> rw [hnext] at hfollow <;> cases hfollow

theorem Session.follow_of_unfit {session : Session} {directive : Directive}
    {operation : Operation} (hoperation : directive.operation? = some operation)
    {error : SessionError} (hunfit : operation.Unfit session.engine.env.files error) :
    session.follow directive = (session, .error error) := by
  have hperform := perform_of_unfit hunfit
  cases directive with
  | quit => cases hoperation
  | next =>
      cases hoperation
      cases hunfit
  | load path | set key value =>
      cases hoperation
      obtain ⟨hafter, hresult⟩ := Prod.mk.inj hperform
      exact Prod.ext hafter (Outcome.followed.inj hresult)

theorem parseCommands_empty : parseCommands "" = .ok [] := by
  rw [parseCommands, readText, Tokens.ofString, Tokens.scan_eq]
  rfl

/-- A semicolon is a request of its own, and no program text. -/
theorem parseCommands_semicolon : (parseCommands ";").isOk = false := by
  rw [parseCommands, readText, Tokens.ofString, Tokens.scan_eq]
  rfl

namespace Shell

/-- A line that is no semicolon and does not parse. -/
def Unparsable (line : String) (error : ParseError) : Prop :=
  trimBlanks line.toList ≠ [';'] ∧
    parseCommands (String.ofList (trimBlanks line.toList)) = .error error

/-- A line that parses has its commands carried out. -/
theorem processLine_of_parse (shell : Shell) {line : String} {commands : List Command}
    (hparse : parseCommands (String.ofList (trimBlanks line.toList)) = .ok commands) :
    shell.processLine line = ((shell.runCommands commands).1,
      (shell.runCommands commands).2.map ("\n".intercalate ·)) := by
  rw [processLine]
  by_cases hempty : trimBlanks line.toList = []
  · rw [hempty] at hparse
    obtain rfl : commands = [] := Except.ok.inj (hparse.symm.trans parseCommands_empty)
    rw [hempty]
    rfl
  · by_cases hnext : trimBlanks line.toList = [';']
    · rw [hnext] at hparse
      have hfault := parseCommands_semicolon
      rw [show ";" = String.ofList [';'] from rfl, hparse] at hfault
      cases hfault
    · simp only [if_neg hempty, if_neg hnext, hparse]

theorem processLine_of_unparsable (shell : Shell) {line : String} {error : ParseError}
    (hline : Unparsable line error) :
    shell.processLine line = (shell, .error (.parse error)) := by
  obtain ⟨hnext, hparse⟩ := hline
  have hempty : trimBlanks line.toList ≠ [] := by
    intro hempty
    rw [hempty] at hparse
    cases hparse.symm.trans parseCommands_empty
  simp only [processLine, if_neg hempty, if_neg hnext, hparse]

theorem prepend_nil (ran : Shell × Except ShellError (List String)) :
    (ran.1, ran.2.map ([] ++ ·)) = ran := by
  rcases ran with ⟨shell, _ | texts⟩ <;> rfl

/-- What a command does: it fails and ends its line, it quits, or it hands on to the
commands behind it. -/
theorem runCommands_cons (shell : Shell) (command : Command) :
    (∃ after error, ∀ rest,
        shell.runCommands (command :: rest) = (after, .error (.session error))) ∨
      (command = .directive .quit ∧ ∀ rest,
        shell.runCommands (command :: rest) = (⟨shell.session, true⟩, .ok [])) ∨
      ∃ (after : Shell) (texts : List String), ∀ rest,
        shell.runCommands (command :: rest) =
          ((after.runCommands rest).1, (after.runCommands rest).2.map (texts ++ ·)) := by
  cases command with
  | statement statement =>
      rcases hexecute : shell.session.execute statement with ⟨session, error | _ | reply⟩
      · refine .inl ⟨{ shell with session }, error, fun rest => ?_⟩
        simp only [runCommands, hexecute]
      · refine .inr (.inr ⟨{ shell with session }, [], fun rest => ?_⟩)
        simp only [runCommands, hexecute, prepend_nil]
      · refine .inr (.inr ⟨{ shell with session }, [reply.render], fun rest => ?_⟩)
        simp only [runCommands, hexecute, List.singleton_append]
  | directive directive =>
      rcases hfollow : shell.session.follow directive with ⟨session, error | followed⟩
      · refine .inl ⟨{ shell with session }, error, fun rest => ?_⟩
        simp only [runCommands, hfollow]
      · by_cases hquit : followed = .quit
        · subst hquit
          obtain ⟨rfl, rfl⟩ := Session.eq_quit_of_follow hfollow
          exact .inr (.inl ⟨rfl, fun rest => rfl⟩)
        · refine .inr (.inr ⟨{ shell with session }, [followed.render], fun rest => ?_⟩)
          cases followed with
          | quit => exact absurd rfl hquit
          | _ => simp only [runCommands, hfollow, List.singleton_append]

theorem runCommands_ne_parse (shell : Shell) (commands : List Command) (error : ParseError) :
    (shell.runCommands commands).2 ≠ .error (.parse error) := by
  induction commands generalizing shell with
  | nil => exact nofun
  | cons command rest ih =>
      obtain ⟨after, failed, hcommand⟩ | ⟨_, hcommand⟩ | ⟨after, texts, hcommand⟩ :=
        shell.runCommands_cons command
      · rw [hcommand]
        exact nofun
      · rw [hcommand]
        exact nofun
      · rw [hcommand]
        cases hrest : (after.runCommands rest).2 with
        | ok more => exact nofun
        | error failed =>
            rintro ⟨⟩
            exact ih after hrest

theorem unparsable_of_processLine {shell : Shell} {line : String} {error : ParseError}
    (herror : (shell.processLine line).2 = .error (.parse error)) :
    Unparsable line error := by
  cases hparse : parseCommands (String.ofList (trimBlanks line.toList)) with
  | ok commands =>
      rw [shell.processLine_of_parse hparse] at herror
      cases hrun : (shell.runCommands commands).2 with
      | ok texts =>
          rw [hrun] at herror
          cases herror
      | error failed =>
          rw [hrun] at herror
          cases herror
          exact absurd hrun (runCommands_ne_parse shell commands error)
  | error fault =>
      by_cases hnext : trimBlanks line.toList = [';']
      · simp only [processLine, hnext, reduceCtorEq, if_false, if_true] at herror
        cases hactive : shell.session.hasActiveQuery with
        | false =>
            rw [hactive] at herror
            cases herror
        | true =>
            cases hresult : shell.session.next.2 <;>
              simp only [hactive, hresult, if_true] at herror <;> cases herror
      · rw [shell.processLine_of_unparsable ⟨hnext, hparse⟩] at herror
        cases herror
        exact ⟨hnext, hparse⟩

/-- Commands are carried out one after another. -/
theorem runCommands_append {shell reached : Shell} {before : List Command} {texts : List String}
    (hbefore : shell.runCommands before = (reached, .ok texts))
    (hquit : .directive .quit ∉ before) (after : List Command) :
    shell.runCommands (before ++ after) =
      ((reached.runCommands after).1, (reached.runCommands after).2.map (texts ++ ·)) := by
  induction before generalizing shell texts with
  | nil =>
      cases hbefore
      exact (prepend_nil _).symm
  | cons command before ih =>
      obtain ⟨hfirst, hlater⟩ := List.ne_and_not_mem_of_not_mem_cons hquit
      obtain ⟨_, failed, hcommand⟩ | ⟨rfl, _⟩ | ⟨middle, shown, hcommand⟩ :=
        shell.runCommands_cons command
      · rw [hcommand] at hbefore
        cases hbefore
      · exact absurd rfl hfirst
      · rw [hcommand] at hbefore
        rcases hmiddle : middle.runCommands before with ⟨final, failed | more⟩
        · rw [hmiddle] at hbefore
          cases hbefore
        · rw [hmiddle] at hbefore
          cases hbefore
          rw [List.cons_append, hcommand, ih hmiddle hlater]
          rcases final.runCommands after with ⟨_, _ | more⟩ <;> simp [Except.map]

/-- Whether a line was refused as one that does not parse. -/
def isUnparsed : Except ShellError String → Bool
  | .error (.parse _) => true
  | .error (.session _) | .error (.system _) | .ok _ => false

/-- A shell keeps out what it refuses: lines that do not parse, and files with a fault.
A directive that is refused ends its line and leaves the shell as the commands before
it left it. -/
structure KeepsOut (shell : Shell) : Prop where
  unparsable : ∀ (line : String) (error : ParseError), Unparsable line error →
    shell.processLine line = (shell, .error (.parse error))
  refused : ∀ (line : String) (error : ParseError),
    (shell.processLine line).2 = .error (.parse error) → Unparsable line error
  unloadable : ∀ (path : String) (error : SessionError),
    shell.session.engine.env.files.Unloadable path error →
      shell.load path = (shell, .error (.session error))
  directive : ∀ (line : String) (before after : List Command) (directive : Directive)
    (reached : Shell) (texts : List String) (operation : Session.Operation)
    (error : SessionError),
    parseCommands (String.ofList (trimBlanks line.toList)) =
        .ok (before ++ .directive directive :: after) →
      .directive .quit ∉ before → shell.runCommands before = (reached, .ok texts) →
      directive.operation? = some operation →
      operation.Unfit reached.session.engine.env.files error →
        shell.processLine line = (reached, .error (.session error))
  run : ∀ lines : List String,
    let ran := runThrough processLine shell lines
    let accepted := ran.2.filter fun entry => !isUnparsed entry.2
    runThrough processLine shell (accepted.map Prod.fst) = (ran.1, accepted)

theorem keepsOut (shell : Shell) : shell.KeepsOut where
  unparsable _ _ := shell.processLine_of_unparsable
  refused _ _ := unparsable_of_processLine
  unloadable path error hfile := by
    simp only [load, Session.load, Files.readFile_eq_error_iff.mpr hfile]
  directive line before after directive reached texts operation error hparse hquit hbefore
      hoperation hunfit := by
    rw [shell.processLine_of_parse hparse, runCommands_append hbefore hquit, runCommands,
      Session.follow_of_unfit hoperation hunfit]
    rfl
  run lines := by
    apply runThrough_accepted processLine isUnparsed
    intro shell line hrefused
    cases hresult : (shell.processLine line).2 with
    | ok text =>
        rw [hresult] at hrefused
        cases hrefused
    | error failed =>
        rw [hresult] at hrefused
        cases failed with
        | parse error =>
            rw [shell.processLine_of_unparsable (unparsable_of_processLine hresult)]
        | _ => cases hrefused

end Shell

namespace Session

/-- A query that starts by asserting a file with a fault fails, and leaves nothing
behind but that no query is active. -/
theorem executeQuery_of_unassertable {session : Session} {path : String} {cause : LoadError}
    (hfault : session.engine.env.files.Unassertable path cause)
    (hpatience : 2 ≤ session.engine.patience) (goals : Query) :
    session.executeQuery (.fact ⟨"assert", [.str path]⟩ :: goals) =
      ({ session with active := none }, .error (.resolve (.load path cause))) := by
  obtain ⟨engine, active⟩ := session
  obtain ⟨fuel, hfuel⟩ : ∃ fuel, engine.patience = fuel + 1 + 1 :=
    ⟨engine.patience - 2, (Nat.sub_add_cancel hpatience).symm⟩
  let machine : Machine := .ofQuery (.fact ⟨"assert", [.str path]⟩ :: goals) .empty
  let start : Search := ⟨engine.env, engine.resolver.nextFresh, machine, none⟩
  have hasserts : start.AssertsFile path ⟨.empty, pushGoals goals 0 []⟩ :=
    ⟨.str path, goals, 0, [], rfl, rfl, rfl⟩
  have hpulled : ∀ limit, start.pullUpTo limit engine.patience =
      ({ start with machine := ⟨none, []⟩, failure := some (.load path cause) }, .exhausted) := by
    -- One step asserts the file, and the next finds nothing left to try.
    intro limit
    rw [hfuel, (start.assertsWhole limit).faulty path _ cause _ hasserts hfault]
    exact Search.pullUpTo_of_empty rfl limit fuel
  have hpull : engine.pull engine.current machine =
      (engine, ⟨none, []⟩, some (.load path cause), .exhausted) := by
    rw [Engine.pull, Engine.resolverAt_current]
    simp only [show Search.mk engine.env engine.resolver.nextFresh machine none = start from rfl,
      hpulled, Engine.setResolver, Engine.current, Nat.lt_irrefl, if_false]
    rfl
  rw [executeQuery, next]
  simp only [Engine.query, Engine.next]
  rw [show Machine.ofQuery _ _ = machine from rfl]
  simp only [hpull]
  rfl

end Session

/-- Input that is refused changes nothing: a session and a shell keep it out, whatever
came before it, and a search takes a file that is asserted as a whole or not at all.  A
query that starts by asserting a file with a fault fails at once. -/
theorem refused_input_changes_nothing (session : Session) (shell : Shell)
    (limit : Option Nat) (search : Search) :
    session.KeepsOut ∧ shell.KeepsOut ∧ search.AssertsWhole limit ∧
      ∀ (path : String) (cause : LoadError) (goals : Query),
        session.engine.env.files.Unassertable path cause → 2 ≤ session.engine.patience →
          session.executeQuery (.fact ⟨"assert", [.str path]⟩ :: goals) =
            ({ session with active := none }, .error (.resolve (.load path cause))) := by
  refine ⟨session.keepsOut, shell.keepsOut, search.assertsWhole limit, ?_⟩
  intro path cause goals hfault hpatience
  exact Session.executeQuery_of_unassertable hfault hpatience goals

/-- A compiled program of two facts that was cut off in the second. -/
def cutProgram : String :=
  "\x7b\"t\":\"fact\",\"f\":\"p\",\"a\":[]\x7d\n\x7b\"t\":\"fact\""

/-- A session with such a file neither loads nor asserts the fact before the cut. -/
theorem cut_program_is_kept_out :
    let files := Files.ofEntries .bare [("cut", cutProgram.toUTF8)]
    let cause := CompiledError.json .truncated
    let session := ((Session.fresh none (.fresh none) files).execute
      (.clause (.fact ⟨"q", []⟩))).1
    let shell := Shell.ofSession session
    let goals : Query := [.fact ⟨"assert", [.str "cut"]⟩, .fact ⟨"p", []⟩]
    let search : Search := ⟨session.engine.env, 0, .ofQuery goals .empty, none⟩
    (Compiled.decode cutProgram.toUTF8.toList).map
        (fun part => part.toOption.map Statement.render) = [some "p.", none] ∧
      files.Unloadable "cut" (.load "cut" cause) ∧ files.Unassertable "cut" (.content cause) ∧
      session.perform (.load "cut") = (session, .followed (.error (.load "cut" cause))) ∧
      shell.load "cut" = (shell, .error (.session (.load "cut" cause))) ∧
      search.pullUpTo none 1 =
        ({ search with
          machine := ⟨none, []⟩
          failure := some (.load "cut" (.content cause)) }, .unfinished) ∧
      session.executeQuery goals =
        ({ session with active := none }, .error (.resolve (.load "cut" (.content cause)))) := by
  intro files cause session shell goals search
  obtain ⟨hsession, hshell, hsearch, hquery⟩ :=
    refused_input_changes_nothing session shell none search
  have hread : files.read "cut" = .ok cutProgram.toUTF8 := by decide +kernel
  have hcut : Compiled.decodeAll cutProgram.toUTF8.toList = .error cause := by
    have hfault : (match Compiled.decodeAll cutProgram.toUTF8.toList with
        | .error fault => some fault
        | .ok _ => none) = some cause := by decide +kernel
    cases hdecode : Compiled.decodeAll cutProgram.toUTF8.toList with
    | ok statements =>
        rw [hdecode] at hfault
        cases hfault
    | error fault =>
        rw [hdecode] at hfault
        rw [Option.some.inj hfault]
  obtain ⟨good, rest, hdecode⟩ := Compiled.decodeAll_eq_error_iff.mp hcut
  have hunassertable : files.Unassertable "cut" (.content cause) :=
    .undecodable (Files.read_eq_ok_iff.mp hread) hdecode (.inl rfl)
  have hunloadable : files.Unloadable "cut" (.load "cut" cause) :=
    .undecodable (readText_eq hread) (by decide +kernel) hdecode
  refine ⟨by decide +kernel, hunloadable, hunassertable, hsession.unfit _ _ (.file hunloadable),
    hshell.unloadable _ _ hunloadable, ?_, hquery _ _ _ hunassertable (by decide)⟩
  exact hsearch.faulty "cut" ⟨.empty, pushGoals [.fact ⟨"p", []⟩] 0 []⟩ _ 0
    ⟨.str "cut", [.fact ⟨"p", []⟩], 0, [], rfl, rfl, rfl⟩ hunassertable

end Horn
