/-
What a session does with its queries.  One query is active at most, and only as
long as it gives answers.  It runs to its end under the limit it was started
with: a change of the limit opens another resolver and leaves those of older
streams alone, so that later queries run as in a session created with it.
-/
import Horn.Proofs.Resolvers
import Horn.Session

namespace Horn

namespace Session

/-- What a session is asked for.  A directive is one of the last three, or ends
the program. -/
inductive Operation
  | execute (statement : Statement)
  | executeText (text : String)
  | next
  | load (path : String)
  | setOption (key value : String)

inductive Outcome
  | executed (result : Except SessionError Executed)
  | replied (result : Except SessionError Reply)
  | followed (result : Except SessionError Followed)

def perform (session : Session) : Operation → Session × Outcome
  | .execute statement =>
      let (session, result) := session.execute statement
      (session, .executed result)
  | .executeText text =>
      let (session, result) := session.executeText text
      (session, .replied result)
  | .next =>
      let (session, result) := session.next
      (session, .replied result)
  | .load path =>
      let (session, result) := session.load path
      (session, .followed result)
  | .setOption key value =>
      let (session, result) := session.setOption key value
      (session, .followed result)

def performAll (session : Session) : List Operation → Session
  | [] => session
  | operation :: rest => (session.perform operation).1.performAll rest

/-- Operations with their outcomes. -/
def log (session : Session) : List Operation → List (Operation × Outcome)
  | [] => []
  | operation :: rest =>
      (operation, (session.perform operation).2) :: (session.perform operation).1.log rest

theorem performAll_append (session : Session) (first second : List Operation) :
    session.performAll (first ++ second) = (session.performAll first).performAll second := by
  induction first generalizing session with
  | nil => rfl
  | cons operation first ih => exact ih _

theorem log_append (session : Session) (first second : List Operation) :
    session.log (first ++ second) =
      session.log first ++ (session.performAll first).log second := by
  induction first generalizing session with
  | nil => rfl
  | cons operation first ih => exact congrArg (_ :: ·) (ih _)

namespace Operation

def isNext : Operation → Bool
  | .next => true
  | _ => false

/-- Queries that are run while a file is loaded do not count. -/
def startsQuery : Operation → Bool
  | .execute (.query _) => true
  | .execute (.clause _) => false
  | .executeText text => (parseQuery text).isOk
  | .next | .load _ | .setOption _ _ => false

/-- Whether an operation starts or advances a query. -/
def asksQuery (operation : Operation) : Bool :=
  operation.startsQuery || operation.isNext

end Operation

namespace Outcome

def isAnswer : Outcome → Bool
  | .executed (.ok (.reply (.answer _))) | .replied (.ok (.answer _)) => true
  | _ => false

/-- Whether a search was given up before its end. -/
def isUnfinished : Outcome → Bool
  | .executed (.error .unfinished) | .replied (.error .unfinished)
  | .followed (.error .unfinished) => true
  | _ => false

@[simp] theorem isAnswer_executed_map (result : Except SessionError Reply) :
    (executed (result.map .reply)).isAnswer = (replied result).isAnswer := by
  cases result with
  | ok reply => cases reply <;> rfl
  | error error => rfl

@[simp] theorem isUnfinished_executed_map (result : Except SessionError Reply) :
    (executed (result.map .reply)).isUnfinished = (replied result).isUnfinished := by
  cases result with
  | ok reply => rfl
  | error error => cases error <;> rfl

end Outcome

/-- Whether the last operation that started or advanced a query gave an answer. -/
def answeredLast (log : List (Operation × Outcome)) : Bool :=
  match (log.filter fun entry => entry.1.asksQuery).getLast? with
  | some entry => entry.2.isAnswer
  | none => false

/-- The depth limit that the value of the setting stands for. -/
def limitOf (value : String) : Option Nat :=
  if value = "none" ∨ value = "unlimited" then none else readSettingNumber? value

/-- The depth limit for new queries after an operation: a new one if it was set. -/
def limitAfter (limit : Option Nat) : Operation × Outcome → Option Nat
  | (.setOption _ value, .followed (.ok _)) => limitOf value
  | _ => limit

/-- The depth limit that was set last, by a call that succeeded. -/
def lastLimit (limit : Option Nat) (log : List (Operation × Outcome)) : Option Nat :=
  log.foldl limitAfter limit

/-- Whether no answer is asked for before a query is started. -/
def startsFirst : List Operation → Bool
  | [] => true
  | operation :: rest => operation.startsQuery || (!operation.isNext && startsFirst rest)

/-- A session created with a depth limit over the store, the output and the names
handed out of this one. -/
def recreated (session : Session) (maxDepth : Option Nat) : Session :=
  ⟨⟨session.engine.env, [], ⟨maxDepth, session.engine.resolver.nextFresh⟩,
    session.engine.patience⟩, none⟩

/-- A setting that is refused changes nothing, and one that is taken changes the
limit for new queries.  Which of the two it is does not depend on the session. -/
theorem setOption_eq_or (key value : String) :
    (∃ error, ∀ session : Session,
        session.setOption key value = (session, .error error)) ∨
      ∀ session : Session, session.setOption key value =
        ({ session with engine := session.engine.reconfigured (limitOf value) },
          .ok (.set key value)) := by
  by_cases hkey : key = "max_depth"
  · by_cases hword : value = "none" ∨ value = "unlimited"
    · exact Or.inr fun session => by simp only [setOption, limitOf, if_pos hkey, if_pos hword]
    · cases hnumber : readSettingNumber? value with
      | some most =>
          exact Or.inr fun session => by
            simp only [setOption, limitOf, if_pos hkey, if_neg hword, hnumber]
      | none =>
          exact Or.inl ⟨.invalidValue key value, fun session => by
            simp only [setOption, if_pos hkey, if_neg hword, hnumber]⟩
  · exact Or.inl ⟨.unknownOption key, fun session => by simp only [setOption, if_neg hkey]⟩

theorem answeredLast_append (log : List (Operation × Outcome)) (entry : Operation × Outcome) :
    answeredLast (log ++ [entry]) =
      if entry.1.asksQuery then entry.2.isAnswer else answeredLast log := by
  by_cases hasks : entry.1.asksQuery = true
  · simp [answeredLast, List.filter_append, hasks]
  · simp [answeredLast, List.filter_append, hasks]

/-- The next answer keeps a query active, and nothing else does. -/
theorem hasActiveQuery_next (session : Session)
    (hfinished : (Outcome.replied session.next.2).isUnfinished = false) :
    session.next.1.hasActiveQuery = (Outcome.replied session.next.2).isAnswer := by
  cases hactive : session.active with
  | none =>
      rw [next, hactive]
      exact congrArg Option.isSome hactive
  | some active =>
      simp only [next, hactive] at hfinished ⊢
      cases hresult : (session.engine.next active.stream).2.2 with
      | unfinished =>
          simp only [hresult] at hfinished
          cases hfinished
      | _ => simp only [hasActiveQuery, Option.isSome, Outcome.isAnswer]

theorem next_eq_noActiveQuery_iff (session : Session) :
    session.next.2 = .error .noActiveQuery ↔ session.hasActiveQuery = false := by
  rw [hasActiveQuery, next]
  cases hactive : session.active with
  | none => simp
  | some active => cases hresult : (session.engine.next active.stream).2.2 <;> simp [hresult]

/-- An operation that starts or advances a query leaves it active if it gives an
answer, and the other operations leave the active query as it is. -/
theorem hasActiveQuery_perform (session : Session) (operation : Operation)
    (hfinished : (session.perform operation).2.isUnfinished = false) :
    (session.perform operation).1.hasActiveQuery =
      if operation.asksQuery then (session.perform operation).2.isAnswer
      else session.hasActiveQuery := by
  cases operation with
  | execute statement =>
      cases statement with
      | clause clause => rfl
      | query goals =>
          simp only [perform, execute, Outcome.isUnfinished_executed_map] at hfinished
          simp only [perform, execute, Outcome.isAnswer_executed_map]
          exact hasActiveQuery_next _ hfinished
  | executeText text =>
      simp only [perform, executeText, Operation.asksQuery, Operation.startsQuery,
        Operation.isNext, Bool.or_false] at hfinished ⊢
      cases hparse : parseQuery text with
      | error error => rfl
      | ok goals =>
          rw [hparse] at hfinished
          exact hasActiveQuery_next _ hfinished
  | next => exact hasActiveQuery_next session hfinished
  | load path =>
      simp only [perform, load]
      cases readFile session.engine.env.files path <;> rfl
  | setOption key value =>
      obtain ⟨error, hset⟩ | hset := setOption_eq_or key value <;>
        rw [perform, hset] <;> rfl

theorem hasActiveQuery_performAll {session : Session} {operations : List Operation}
    (hinactive : session.active = none)
    (hfinished : ∀ entry ∈ session.log operations, entry.2.isUnfinished = false) :
    (session.performAll operations).hasActiveQuery = answeredLast (session.log operations) := by
  induction operations using List.reverseRecOn with
  | nil => exact congrArg Option.isSome hinactive
  | append_singleton operations operation ih =>
      rw [log_append] at hfinished ⊢
      rw [performAll_append]
      have hlast := hfinished _ (List.mem_append_right _ List.mem_cons_self)
      have hbefore := ih fun entry hentry => hfinished entry (List.mem_append_left _ hentry)
      rw [log, log, answeredLast_append, ← hbefore]
      exact hasActiveQuery_perform _ operation hlast

end Session

namespace Session

theorem drainUpTo_twin {offset : Nat} {engine other : Engine} (htwin : engine.Twin offset other)
    {stream : QueryStream} (hopened : stream.resolver ≤ other.current) (fuel : Nat) :
    (drainUpTo engine fuel (stream.shift offset)).2 = (drainUpTo other fuel stream).2 ∧
      (drainUpTo engine fuel (stream.shift offset)).1.Twin offset
        (drainUpTo other fuel stream).1 := by
  induction fuel generalizing engine other stream with
  | zero => exact ⟨rfl, htwin⟩
  | succ fuel ih =>
      obtain ⟨hstream, hresult, hbound, _⟩ := htwin.alike.next hopened
      have hafter := htwin.next hopened
      simp only [drainUpTo, hstream, hresult]
      cases (other.next stream).2.2 with
      | answer found =>
          apply ih hafter
          rw [(other.keepsResolver_next stream).current]
          exact hbound
      | _ => exact ⟨rfl, hafter⟩

theorem runAll_twin {offset : Nat} {engine other : Engine} (htwin : engine.Twin offset other)
    (statements : List Statement) :
    (runAll engine statements).2 = (runAll other statements).2 ∧
      (runAll engine statements).1.Twin offset (runAll other statements).1 := by
  induction statements generalizing engine other with
  | nil => exact ⟨rfl, htwin⟩
  | cons statement statements ih =>
      cases statement with
      | clause clause => exact ih (htwin.insertAll _)
      | query goals =>
          obtain ⟨herror, hafter⟩ :=
            drainUpTo_twin htwin (Nat.le_refl (other.query goals).resolver) other.patience
          simp only [runAll, htwin.query, htwin.alike.patience]
          rcases hengine : drainUpTo engine other.patience ((other.query goals).shift offset)
            with ⟨after, error⟩
          rcases hother : drainUpTo other other.patience (other.query goals) with ⟨later, same⟩
          rw [hengine, hother] at herror hafter
          obtain rfl : error = same := herror
          cases error with
          | none => exact ih hafter
          | some error => exact ⟨rfl, hafter⟩

theorem keepsResolver_drainUpTo (engine : Engine) (fuel : Nat) (stream : QueryStream) :
    engine.KeepsResolver (drainUpTo engine fuel stream).1 := by
  induction fuel generalizing engine stream with
  | zero => exact .refl engine
  | succ fuel ih =>
      have hnext := engine.keepsResolver_next stream
      rw [drainUpTo]
      cases hresult : (engine.next stream).2.2 with
      | answer found =>
          simp only [hresult]
          exact hnext.trans (ih _ _)
      | _ =>
          simp only [hresult]
          exact hnext

theorem keepsResolver_runAll (engine : Engine) (statements : List Statement) :
    engine.KeepsResolver (runAll engine statements).1 := by
  induction statements generalizing engine with
  | nil => exact .refl engine
  | cons statement statements ih =>
      cases statement with
      | clause clause =>
          have hstored : engine.KeepsResolver (engine.insertAll [.clause clause]) := ⟨rfl, rfl⟩
          exact hstored.trans (ih _)
      | query goals =>
          have hdrained := keepsResolver_drainUpTo engine engine.patience (engine.query goals)
          rw [runAll]
          rcases hdrain : drainUpTo engine engine.patience (engine.query goals) with ⟨after, error⟩
          rw [hdrain] at hdrained
          cases error with
          | none => exact hdrained.trans (ih after)
          | some error => exact hdrained

end Session

/-- The active query at a place that is higher by an offset. -/
def ActiveQuery.shift (offset : Nat) (active : ActiveQuery) : ActiveQuery :=
  { active with stream := active.stream.shift offset }

namespace Session

/-- Sessions whose active queries are at the same point and go on alike. -/
structure Alike (offset bound : Nat) (session other : Session) : Prop where
  engine : session.engine.Alike offset bound other.engine
  active : session.active = other.active.map (ActiveQuery.shift offset)
  opened : ∀ active ∈ other.active, active.stream.resolver ≤ bound

theorem Alike.next {offset bound : Nat} {session other : Session}
    (halike : session.Alike offset bound other) :
    session.next.2 = other.next.2 ∧ session.next.1.Alike offset bound other.next.1 := by
  obtain ⟨engine, active⟩ := session
  obtain ⟨otherEngine, otherActive⟩ := other
  obtain ⟨hengine, hactive, hopened⟩ := halike
  obtain rfl : active = otherActive.map (ActiveQuery.shift offset) := hactive
  cases otherActive with
  | none => exact ⟨rfl, hengine, rfl, hopened⟩
  | some active =>
      obtain ⟨hstream, hresult, hbound, hafter⟩ := hengine.next (hopened active rfl)
      simp only [Session.next, Option.map_some, ActiveQuery.shift, hstream, hresult]
      cases (otherEngine.next active.stream).2.2 with
      | answer _ | unfinished =>
          refine ⟨rfl, hafter, rfl, ?_⟩
          intro kept hkept
          exact Option.some.inj hkept ▸ hbound
      | _ => exact ⟨rfl, hafter, rfl, nofun⟩

theorem keepsResolver_next (session : Session) :
    session.engine.KeepsResolver session.next.1.engine := by
  rw [next]
  cases hactive : session.active with
  | none => exact .refl session.engine
  | some active =>
      have hnext := session.engine.keepsResolver_next active.stream
      cases hresult : (session.engine.next active.stream).2.2 <;> simpa only [hresult] using hnext

/-- Sessions that do the same whatever they are asked for. -/
structure Twin (offset : Nat) (session other : Session) : Prop where
  engine : session.engine.Twin offset other.engine
  active : session.active = other.active.map (ActiveQuery.shift offset)
  opened : ∀ active ∈ other.active, active.stream.resolver ≤ other.engine.current

theorem Twin.next {offset : Nat} {session other : Session} (htwin : session.Twin offset other) :
    session.next.2 = other.next.2 ∧ session.next.1.Twin offset other.next.1 := by
  have halike : session.Alike offset other.engine.current other :=
    ⟨htwin.engine.alike, htwin.active, htwin.opened⟩
  obtain ⟨hresult, hafter⟩ := halike.next
  have hcurrent := session.keepsResolver_next.current
  have hother := other.keepsResolver_next.current
  refine ⟨hresult, ⟨?_, ?_⟩, hafter.active, ?_⟩
  · rw [hother]
    exact hafter.engine
  · rw [hcurrent, hother]
    exact htwin.engine.current
  · rw [hother]
    exact hafter.opened

/-- The active query that there was does not matter to a new one. -/
theorem executeQuery_twin {offset : Nat} {session other : Session}
    (htwin : session.engine.Twin offset other.engine) (goals : Query) :
    (session.executeQuery goals).2 = (other.executeQuery goals).2 ∧
      (session.executeQuery goals).1.Twin offset (other.executeQuery goals).1 := by
  apply Twin.next
  refine ⟨htwin, ?_, ?_⟩
  · simp only [htwin.query, Option.map_some, ActiveQuery.shift]
  · intro active hactive
    obtain rfl := Option.some.inj hactive
    exact Nat.le_refl _

theorem load_twin {offset : Nat} {session other : Session}
    (htwin : session.engine.Twin offset other.engine) (path : String) :
    (session.load path).2 = (other.load path).2 ∧
      (session.load path).1.engine.Twin offset (other.load path).1.engine := by
  rw [load, load, htwin.alike.env]
  cases readFile other.engine.env.files path with
  | error error => exact ⟨rfl, htwin⟩
  | ok statements =>
      obtain ⟨herror, hafter⟩ := runAll_twin htwin statements
      exact ⟨by simp only [herror], hafter⟩

theorem keepsResolver_executeQuery (session : Session) (goals : Query) :
    session.engine.KeepsResolver (session.executeQuery goals).1.engine :=
  keepsResolver_next ⟨session.engine, some ⟨Query.variables goals, session.engine.query goals⟩⟩

theorem active_load (session : Session) (path : String) :
    (session.load path).1.active = session.active := by
  rw [load]
  cases readFile session.engine.env.files path <;> rfl

/-- An operation either changes the limit for new queries, or new queries run on
the same resolver as before. -/
theorem keepsResolver_perform_or (session : Session) (operation : Operation) :
    (∃ key value, operation = .setOption key value ∧ (session.perform operation) =
        ({ session with engine := session.engine.reconfigured (limitOf value) },
          .followed (.ok (.set key value)))) ∨
      session.engine.KeepsResolver (session.perform operation).1.engine ∧
        ∀ limit, limitAfter limit (operation, (session.perform operation).2) = limit := by
  cases operation with
  | execute statement =>
      refine Or.inr ⟨?_, fun _ => rfl⟩
      cases statement with
      | clause clause => exact ⟨rfl, rfl⟩
      | query goals => exact session.keepsResolver_executeQuery goals
  | executeText text =>
      refine Or.inr ⟨?_, fun _ => rfl⟩
      simp only [perform, executeText]
      cases parseQuery text with
      | error error => exact .refl session.engine
      | ok goals => exact session.keepsResolver_executeQuery goals
  | next => exact Or.inr ⟨session.keepsResolver_next, fun _ => rfl⟩
  | load path =>
      refine Or.inr ⟨?_, fun _ => rfl⟩
      simp only [perform, load]
      cases readFile session.engine.env.files path with
      | error error => exact .refl session.engine
      | ok statements => exact keepsResolver_runAll session.engine statements
  | setOption key value =>
      obtain ⟨error, hset⟩ | hset := setOption_eq_or key value
      · rw [perform, hset]
        exact Or.inr ⟨.refl session.engine, fun _ => rfl⟩
      · rw [perform, hset]
        exact Or.inl ⟨key, value, rfl, rfl⟩

theorem current_perform (session : Session) (operation : Operation) :
    session.engine.current ≤ (session.perform operation).1.engine.current := by
  obtain ⟨key, value, _, hperform⟩ | ⟨hkeeps, _⟩ := session.keepsResolver_perform_or operation
  · rw [hperform, Engine.current_reconfigured]
    exact Nat.le_succ _
  · exact hkeeps.current.ge

/-- An operation that asks for no more of the active query does the same in both
sessions, and a query that it starts goes on alike. -/
theorem perform_twin_of_engines {offset : Nat} {session other : Session}
    (htwin : session.engine.Twin offset other.engine) {operation : Operation}
    (hnext : operation.isNext = false) :
    (session.perform operation).2 = (other.perform operation).2 ∧
      (session.perform operation).1.engine.Twin offset (other.perform operation).1.engine ∧
      (operation.startsQuery = true →
        (session.perform operation).1.Twin offset (other.perform operation).1) ∧
      (operation.startsQuery = false →
        (session.perform operation).1.active = session.active ∧
          (other.perform operation).1.active = other.active) := by
  cases operation with
  | execute statement =>
      cases statement with
      | clause clause => exact ⟨rfl, htwin.insertAll _, nofun, fun _ => ⟨rfl, rfl⟩⟩
      | query goals =>
          obtain ⟨hresult, hafter⟩ := executeQuery_twin htwin goals
          refine ⟨?_, hafter.engine, fun _ => hafter, nofun⟩
          exact congrArg (fun result => Outcome.executed (result.map .reply)) hresult
  | executeText text =>
      simp only [perform, executeText, Operation.startsQuery]
      cases parseQuery text with
      | error error => exact ⟨rfl, htwin, nofun, fun _ => ⟨rfl, rfl⟩⟩
      | ok goals =>
          obtain ⟨hresult, hafter⟩ := executeQuery_twin htwin goals
          exact ⟨congrArg Outcome.replied hresult, hafter.engine, fun _ => hafter, nofun⟩
  | next => cases hnext
  | load path =>
      obtain ⟨hresult, hafter⟩ := load_twin htwin path
      refine ⟨congrArg Outcome.followed hresult, hafter, nofun, fun _ => ?_⟩
      exact ⟨active_load session path, active_load other path⟩
  | setOption key value =>
      obtain ⟨error, hset⟩ | hset := setOption_eq_or key value
      · rw [perform, perform, hset, hset]
        exact ⟨rfl, htwin, nofun, fun _ => ⟨rfl, rfl⟩⟩
      · rw [perform, perform, hset, hset]
        exact ⟨rfl, htwin.reconfigured _, nofun, fun _ => ⟨rfl, rfl⟩⟩

theorem Twin.perform {offset : Nat} {session other : Session}
    (htwin : session.Twin offset other) (operation : Operation) :
    (session.perform operation).2 = (other.perform operation).2 ∧
      (session.perform operation).1.Twin offset (other.perform operation).1 := by
  cases hnext : operation.isNext with
  | true =>
      cases operation with
      | next =>
          obtain ⟨hresult, hafter⟩ := htwin.next
          exact ⟨congrArg Outcome.replied hresult, hafter⟩
      | _ => cases hnext
  | false =>
      obtain ⟨houtcome, hengine, hstarted, hkept⟩ := perform_twin_of_engines htwin.engine hnext
      refine ⟨houtcome, ?_⟩
      cases hstarts : operation.startsQuery with
      | true => exact hstarted hstarts
      | false =>
          obtain ⟨hactive, hother⟩ := hkept hstarts
          refine ⟨hengine, ?_, ?_⟩
          · rw [hactive, hother]
            exact htwin.active
          · rw [hother]
            intro active hmem
            exact Nat.le_trans (htwin.opened active hmem) (other.current_perform operation)

theorem Twin.performAll {offset : Nat} {session other : Session}
    (htwin : session.Twin offset other) (operations : List Operation) :
    session.log operations = other.log operations ∧
      (session.performAll operations).Twin offset (other.performAll operations) := by
  induction operations generalizing session other with
  | nil => exact ⟨rfl, htwin⟩
  | cons operation operations ih =>
      obtain ⟨houtcome, hafter⟩ := htwin.perform operation
      obtain ⟨hlog, hreached⟩ := ih hafter
      refine ⟨?_, hreached⟩
      rw [log, log, houtcome, hlog]

theorem performAll_twin_of_engines {offset : Nat} {session other : Session}
    (htwin : session.engine.Twin offset other.engine) {operations : List Operation}
    (hfirst : startsFirst operations = true) :
    session.log operations = other.log operations ∧
      (session.performAll operations).engine.Twin offset (other.performAll operations).engine := by
  induction operations generalizing session other with
  | nil => exact ⟨rfl, htwin⟩
  | cons operation operations ih =>
      have hnext : operation.isNext = false := by
        cases operation <;> first | rfl | cases hfirst
      obtain ⟨houtcome, hengine, hstarted, _⟩ := perform_twin_of_engines htwin hnext
      rw [log, log, houtcome]
      cases hstarts : operation.startsQuery with
      | true =>
          obtain ⟨hlog, hreached⟩ := (hstarted hstarts).performAll operations
          exact ⟨congrArg _ hlog, hreached.engine⟩
      | false =>
          rw [startsFirst, hstarts, hnext] at hfirst
          obtain ⟨hlog, hreached⟩ := ih hengine hfirst
          exact ⟨congrArg _ hlog, hreached⟩

/-- The active query of a session that has been reached has its resolver. -/
theorem twin_reached (maxDepth : Option Nat) (sink : Sink) (files : Files)
    (operations : List Operation) :
    ((fresh maxDepth sink files).performAll operations).Twin 0
      ((fresh maxDepth sink files).performAll operations) := by
  have hstart : (fresh maxDepth sink files).Twin 0 (fresh maxDepth sink files) :=
    ⟨⟨⟨rfl, rfl, Nat.le_refl _, Nat.le_refl _, fun _ _ => rfl⟩, rfl⟩, rfl, nofun⟩
  exact (hstart.performAll operations).2

theorem Alike.setOption {offset bound : Nat} {session other : Session}
    (halike : session.Alike offset bound other) (key value : String) :
    (session.setOption key value).1.Alike offset bound other := by
  obtain ⟨error, hset⟩ | hset := setOption_eq_or key value
  · rw [hset]
    exact halike
  · rw [hset]
    exact ⟨halike.engine.reconfigured _, halike.active, halike.opened⟩

/-- Settings between calls for the next answer make no difference to them. -/
theorem Alike.filter_log {offset bound : Nat} {session other : Session}
    (halike : session.Alike offset bound other) {calls : List Operation}
    (hcalls : ∀ call ∈ calls, call = .next ∨ ∃ key value, call = .setOption key value) :
    (session.log calls).filter (fun entry => entry.1.isNext) =
        other.log (calls.filter Operation.isNext) ∧
      (session.performAll calls).engine.env =
        (other.performAll (calls.filter Operation.isNext)).engine.env := by
  induction calls generalizing session other with
  | nil => exact ⟨rfl, halike.engine.env⟩
  | cons call calls ih =>
      have hrest : ∀ call ∈ calls, call = .next ∨ ∃ key value, call = .setOption key value :=
        fun later hlater => hcalls later (List.mem_cons_of_mem _ hlater)
      obtain rfl | ⟨key, value, rfl⟩ := hcalls call List.mem_cons_self
      · obtain ⟨hresult, hafter⟩ := halike.next
        obtain ⟨hlog, henv⟩ := ih hafter hrest
        have houtcome : (session.perform .next).2 = (other.perform .next).2 :=
          congrArg Outcome.replied hresult
        refine ⟨?_, henv⟩
        rw [List.filter_cons_of_pos rfl, log, List.filter_cons_of_pos rfl, log, houtcome]
        exact congrArg _ hlog
      · exact ih (halike.setOption key value) hrest

theorem maxDepth_performAll (session : Session) (operations : List Operation) :
    (session.performAll operations).maxDepth =
      lastLimit session.maxDepth (session.log operations) := by
  induction operations generalizing session with
  | nil => rfl
  | cons operation operations ih =>
      refine (ih _).trans ?_
      rw [lastLimit, lastLimit, log, List.foldl_cons]
      obtain ⟨key, value, rfl, hperform⟩ | ⟨hkeeps, hlimit⟩ :=
        session.keepsResolver_perform_or operation
      · rw [hperform]
        rfl
      · rw [hlimit, maxDepth, hkeeps.maxDepth]
        rfl

/-- New queries run as they do in a session created with the limit. -/
theorem twin_recreated (session : Session) :
    session.engine.Twin session.engine.current (session.recreated session.maxDepth).engine where
  current := (Nat.zero_add _).symm
  alike :=
    { env := rfl
      patience := rfl
      current := Nat.le_of_eq (Nat.zero_add _)
      otherCurrent := Nat.le_refl _
      resolverAt := by
        intro place hplace
        obtain rfl := Nat.le_zero.mp hplace
        rw [Nat.zero_add, Engine.resolverAt_current]
        rfl }

end Session

/-- A session has an active query exactly if the last operation that started or
advanced one gave an answer.  Settings made between calls for more of its answers
change neither these nor what is written and stored, and the queries started after
them run as in a session created with the limit that was set last. -/
theorem active_query_runs_undisturbed (maxDepth : Option Nat) (sink : Sink) (files : Files)
    (operations : List Session.Operation)
    (hfinished : ∀ entry ∈ (Session.fresh maxDepth sink files).log operations,
      entry.2.isUnfinished = false) :
    let log := (Session.fresh maxDepth sink files).log operations
    let reached := (Session.fresh maxDepth sink files).performAll operations
    reached.hasActiveQuery = Session.answeredLast log ∧
      (reached.next.2 = .error .noActiveQuery ↔ reached.hasActiveQuery = false) ∧
      (∀ calls : List Session.Operation,
        (∀ call ∈ calls, call = .next ∨ ∃ key value, call = .setOption key value) →
        let nexts := calls.filter Session.Operation.isNext
        (reached.log calls).filter (fun entry => entry.1.isNext) = reached.log nexts ∧
          (reached.performAll calls).engine.env = (reached.performAll nexts).engine.env) ∧
      ∀ later : List Session.Operation, Session.startsFirst later = true →
        let created := reached.recreated (Session.lastLimit maxDepth log)
        reached.log later = created.log later ∧
          (reached.performAll later).engine.env = (created.performAll later).engine.env := by
  intro log reached
  have hreached : reached.Twin 0 reached := Session.twin_reached maxDepth sink files operations
  have hlimit : reached.maxDepth = Session.lastLimit maxDepth log :=
    Session.maxDepth_performAll _ operations
  refine ⟨Session.hasActiveQuery_performAll rfl hfinished,
    reached.next_eq_noActiveQuery_iff, ?_, ?_⟩
  · intro calls hcalls
    have halike : reached.Alike 0 reached.engine.current reached :=
      ⟨hreached.engine.alike, hreached.active, hreached.opened⟩
    exact halike.filter_log hcalls
  · intro later hfirst
    rw [← hlimit]
    obtain ⟨hlog, hafter⟩ := Session.performAll_twin_of_engines reached.twin_recreated hfirst
    exact ⟨hlog, hafter.alike.env⟩

/-- The program `q(a). q(b). p(X) :- q(X).` with a query of it, after whose first
answer the limit is lowered. -/
def loweringLimit : List Session.Operation :=
  [.execute (.clause (.fact ⟨"q", [.atom "a"]⟩)), .execute (.clause (.fact ⟨"q", [.atom "b"]⟩)),
    .execute (.clause (.rule ⟨"p", [.var "X"]⟩ [.fact ⟨"q", [.var "X"]⟩])),
    .executeText "?- p(X).", .setOption "max_depth" "0"]

/-- The query goes on to its second answer, between a setting that is refused and
one more that is taken, and the same query started anew finds nothing. -/
theorem lowered_limit_spares_active_query :
    let session := Session.fresh none (.fresh none) .empty
    let reached := session.performAll loweringLimit
    let calls : List Session.Operation :=
      [.setOption "max_depth" "deep", .next, .setOption "max_depth" "1", .next]
    let later : List Session.Operation := [.executeText "?- p(X).", .next]
    (∀ entry ∈ session.log loweringLimit, entry.2.isUnfinished = false) ∧
      Session.lastLimit none (session.log loweringLimit) = some 0 ∧
      Session.answeredLast (session.log loweringLimit) = true ∧
      (reached.log calls).map (fun entry => entry.2.isAnswer) = [false, true, false, false] ∧
      (reached.log later).map (fun entry => entry.2.isAnswer) = [false, false] ∧
      reached.hasActiveQuery = true ∧
      (reached.next.2 = .error .noActiveQuery ↔ reached.hasActiveQuery = false) ∧
      (reached.log calls).filter (fun entry => entry.1.isNext) = reached.log [.next, .next] ∧
      reached.log later = (reached.recreated (some 0)).log later := by
  intro session reached calls later
  have hfinished : ∀ entry ∈ session.log loweringLimit, entry.2.isUnfinished = false := by
    decide +kernel
  have hlimit : Session.lastLimit none (session.log loweringLimit) = some 0 := by decide +kernel
  have hanswered : Session.answeredLast (session.log loweringLimit) = true := by decide +kernel
  obtain ⟨hactive, hnext, hcalls, hlater⟩ :=
    active_query_runs_undisturbed none (.fresh none) .empty loweringLimit
      hfinished
  refine ⟨hfinished, hlimit, hanswered, by decide +kernel, by decide +kernel,
    hactive.trans hanswered, hnext, (hcalls calls ?_).1, ?_⟩
  · simp [calls]
  · exact hlimit ▸ (hlater later (by decide +kernel)).1

end Horn
