/-
What the caller of a stream sees.  Errors are reported while a search goes on
with other alternatives, and told only when its pull is over; still the results
of a stream are its answers up to the first report, then that error, and then
exhaustion for ever, whatever the other streams of its engine do in between.
-/
import Horn.Proofs.Hygiene

namespace Horn

/-- The answers that were found before an error was reported. -/
def answersBeforeReport : List Observation → List Bindings
  | [] => []
  | .answer found :: rest => found :: answersBeforeReport rest
  | .event (.reported _) :: _ => []
  | .event (.wrote _) :: rest => answersBeforeReport rest
  | .event (.stored _) :: rest => answersBeforeReport rest

/-- The first error that was reported. -/
def report? : List Observation → Option ResolveError
  | [] => none
  | .answer _ :: rest => report? rest
  | .event (.reported error) :: _ => some error
  | .event (.wrote _) :: rest => report? rest
  | .event (.stored _) :: rest => report? rest

/-- Nothing that is found after a report counts. -/
theorem append_of_report {shown : List Observation} {error : ResolveError}
    (hreport : report? shown = some error) (more : List Observation) :
    answersBeforeReport (shown ++ more) = answersBeforeReport shown ∧
      report? (shown ++ more) = some error := by
  induction shown with
  | nil => cases hreport
  | cons observation shown ih =>
      cases observation with
      | answer found =>
          obtain ⟨hanswers, hsame⟩ := ih hreport
          exact ⟨congrArg (found :: ·) hanswers, hsame⟩
      | event seen =>
          cases seen with
          | reported first => exact ⟨rfl, hreport⟩
          | wrote text => exact ih hreport
          | stored clause => exact ih hreport

theorem append_of_no_report {shown : List Observation} (hreport : report? shown = none)
    (more : List Observation) :
    answersBeforeReport (shown ++ more) =
        answersBeforeReport shown ++ answersBeforeReport more ∧
      report? (shown ++ more) = report? more := by
  induction shown with
  | nil => exact ⟨rfl, rfl⟩
  | cons observation shown ih =>
      cases observation with
      | answer found =>
          obtain ⟨hanswers, hsame⟩ := ih hreport
          exact ⟨congrArg (found :: ·) hanswers, hsame⟩
      | event seen =>
          cases seen with
          | reported first => cases hreport
          | wrote text => exact ih hreport
          | stored clause => exact ih hreport

/-- Events alone are no answers. -/
theorem of_events (events : List Event) :
    answersBeforeReport (events.map .event) = [] ∧
      report? (events.map .event) = firstReport? events := by
  induction events with
  | nil => exact ⟨rfl, rfl⟩
  | cons seen events ih => cases seen <;> first | exact ⟨rfl, rfl⟩ | exact ih

theorem firstReport?_append (first second : List Event) :
    firstReport? (first ++ second) = (firstReport? first).or (firstReport? second) := by
  induction first with
  | nil => rfl
  | cons seen first ih => cases seen <;> first | rfl | exact ih

namespace Search

/-- After a pull the first error is the one there was, or else the first of the
pull's events. -/
theorem failure_pullUpTo (limit : Option Nat) (fuel : Nat) (search : Search) :
    (search.pullUpTo limit fuel).1.failure =
      search.failure.or (firstReport? (search.eventsUpTo limit fuel)) := by
  induction fuel generalizing search with
  | zero => simp [pullUpTo, eventsUpTo, firstReport?]
  | succ fuel ih =>
      rw [pullUpTo, eventsUpTo]
      cases houtcome : (search.machine.step search.env limit search.nextFresh).outcome with
      | running machine => simp only [ih, after, firstReport?_append, Option.or_assoc]
      | answer found machine => rfl
      | exhausted => rfl

/-- A search that is exhausted has nothing left to try. -/
theorem machine_of_exhausted {limit : Option Nat} {fuel : Nat} {search : Search}
    (hpull : (search.pullUpTo limit fuel).2 = .exhausted) :
    (search.pullUpTo limit fuel).1.machine = ⟨none, []⟩ := by
  induction fuel generalizing search with
  | zero => cases hpull
  | succ fuel ih =>
      rw [pullUpTo] at hpull ⊢
      cases houtcome : (search.machine.step search.env limit search.nextFresh).outcome with
      | running machine =>
          simp only [houtcome] at hpull ⊢
          exact ih hpull
      | answer found machine =>
          simp only [houtcome] at hpull
          cases hpull
      | exhausted => rfl

end Search

/-- The answer that a pull ends with. -/
def Pull.shown : Pull → List Observation
  | .answer found => [.answer found]
  | .exhausted => []
  | .unfinished => []

/-- What the search of a stream shows while the stream is asked for an answer.  It
is not advanced once the stream has ended or has an error to tell. -/
def Engine.shown (engine : Engine) (stream : QueryStream) : List Observation :=
  if stream.done || stream.failure.isSome then []
  else
    let resolver := engine.resolverAt stream.resolver
    let search : Search := ⟨engine.env, resolver.nextFresh, stream.machine, none⟩
    (search.eventsUpTo resolver.maxDepth engine.patience).map .event ++
      (search.pullUpTo resolver.maxDepth engine.patience).2.shown

/-- A call of a stream: what its search showed meanwhile, and what the caller got. -/
structure Call where
  shown : List Observation
  result : QueryResult

def Engine.call (engine : Engine) (stream : QueryStream) : Call :=
  ⟨engine.shown stream, (engine.next stream).2.2⟩

/-- A stream that has not ended, with nothing in its slot. -/
structure QueryStream.Live (stream : QueryStream) : Prop where
  done : stream.done = false
  failure : stream.failure = none

/-- A stream that has ended is left as it is, and so is the engine. -/
theorem Engine.next_of_done (engine : Engine) {stream : QueryStream} (hdone : stream.done = true) :
    engine.next stream = (engine, stream, .exhausted) := by
  rw [next, if_pos hdone]

theorem Engine.shown_of_done (engine : Engine) {stream : QueryStream}
    (hdone : stream.done = true) : engine.shown stream = [] := by
  rw [shown, if_pos]
  rw [hdone, Bool.true_or]

/-- How a call of a live stream can go. -/
inductive Engine.Turn (engine : Engine) (stream : QueryStream) : Prop
  | failed (error : ResolveError) (hreport : report? (engine.shown stream) = some error)
      (hanswers : answersBeforeReport (engine.shown stream) = [])
      (hdone : (engine.next stream).2.1.done = true)
      (hresult : (engine.next stream).2.2 = .failed error)
  | answer (found : Bindings) (hreport : report? (engine.shown stream) = none)
      (hanswers : answersBeforeReport (engine.shown stream) = [found])
      (hlive : (engine.next stream).2.1.Live)
      (hresult : (engine.next stream).2.2 = .answer found)
  | exhausted (hreport : report? (engine.shown stream) = none)
      (hanswers : answersBeforeReport (engine.shown stream) = [])
      (hdone : (engine.next stream).2.1.done = true)
      (hmachine : (engine.next stream).2.1.machine = ⟨none, []⟩)
      (hresult : (engine.next stream).2.2 = .exhausted)
  | unfinished (hresult : (engine.next stream).2.2 = .unfinished)

section Live

variable (engine : Engine) {stream : QueryStream} (hlive : stream.Live)
include hlive

theorem Engine.shown_of_live :
    ∃ events : List Event,
      engine.shown stream = events.map .event ++
        (engine.pull stream.resolver stream.machine).2.2.2.shown ∧
      (engine.pull stream.resolver stream.machine).2.2.1 = firstReport? events := by
  refine ⟨_, ?_, (Search.failure_pullUpTo _ _ _).trans (Option.none_or ..)⟩
  rw [shown, hlive.done, hlive.failure]
  rfl

/-- An error of a pull is the first report of the stream, and nothing was found
before it. -/
theorem Engine.shown_of_failure {error : ResolveError}
    (hfailure : (engine.pull stream.resolver stream.machine).2.2.1 = some error) :
    report? (engine.shown stream) = some error ∧
      answersBeforeReport (engine.shown stream) = [] := by
  obtain ⟨events, hshown, hevents⟩ := engine.shown_of_live hlive
  obtain ⟨hanswers, hreport⟩ := of_events events
  obtain ⟨hsame, hfirst⟩ :=
    append_of_report (hreport.trans (hevents.symm.trans hfailure))
      (engine.pull stream.resolver stream.machine).2.2.2.shown
  rw [hshown]
  exact ⟨hfirst, hsame.trans hanswers⟩

/-- Without an error a pull shows the answer it ends with. -/
theorem Engine.shown_of_no_failure
    (hfailure : (engine.pull stream.resolver stream.machine).2.2.1 = none) :
    let last := (engine.pull stream.resolver stream.machine).2.2.2
    report? (engine.shown stream) = report? last.shown ∧
      answersBeforeReport (engine.shown stream) = answersBeforeReport last.shown := by
  intro last
  obtain ⟨events, hshown, hevents⟩ := engine.shown_of_live hlive
  obtain ⟨hanswers, hreport⟩ := of_events events
  obtain ⟨hsplit, hlater⟩ :=
    append_of_no_report (hreport.trans (hevents.symm.trans hfailure)) last.shown
  rw [hshown]
  exact ⟨hlater, hsplit.trans (by rw [hanswers, List.nil_append])⟩

/-- A call of a live stream is a pull. -/
theorem Engine.next_of_live : engine.next stream =
    let (engine, machine, failure, pulled) := engine.pull stream.resolver stream.machine
    match pulled, failure with
    | .unfinished, _ => (engine, { stream with machine, failure }, .unfinished)
    | .answer _, some error => (engine, { stream with machine, done := true }, .failed error)
    | .answer bindings, none => (engine, { stream with machine }, .answer bindings)
    | .exhausted, some error => (engine, { stream with machine, done := true }, .failed error)
    | .exhausted, none => (engine, { stream with machine, done := true }, .exhausted) := by
  rw [next, hlive.done, hlive.failure]
  rfl

theorem Engine.turn : engine.Turn stream := by
  have hnext := engine.next_of_live hlive
  cases hlast : (engine.pull stream.resolver stream.machine).2.2.2 with
  | unfinished =>
      refine .unfinished ?_
      simp only [hnext, hlast]
  | answer found =>
      cases hfailure : (engine.pull stream.resolver stream.machine).2.2.1 with
      | none =>
          obtain ⟨hreport, hanswers⟩ := engine.shown_of_no_failure hlive hfailure
          rw [hlast] at hreport hanswers
          refine .answer found hreport hanswers ?_ ?_ <;> simp only [hnext, hlast, hfailure]
          exact ⟨hlive.done, hlive.failure⟩
      | some error =>
          obtain ⟨hreport, hanswers⟩ := engine.shown_of_failure hlive hfailure
          refine .failed error hreport hanswers ?_ ?_ <;> simp only [hnext, hlast, hfailure]
  | exhausted =>
      cases hfailure : (engine.pull stream.resolver stream.machine).2.2.1 with
      | none =>
          obtain ⟨hreport, hanswers⟩ := engine.shown_of_no_failure hlive hfailure
          rw [hlast] at hreport hanswers
          have hmachine : (engine.pull stream.resolver stream.machine).2.1 = ⟨none, []⟩ :=
            Search.machine_of_exhausted hlast
          refine .exhausted hreport hanswers ?_ ?_ ?_ <;> simp only [hnext, hlast, hfailure]
          exact hmachine
      | some error =>
          obtain ⟨hreport, hanswers⟩ := engine.shown_of_failure hlive hfailure
          refine .failed error hreport hanswers ?_ ?_ <;> simp only [hnext, hlast, hfailure]

end Live

/-- What the search of a stream showed in some calls. -/
def shownBy (calls : List Call) : List Observation :=
  calls.flatMap Call.shown

/-- The results that a stream owes for what its search showed: the answers up to
the first report, that error, and exhaustion so many times. -/
def owed (shown : List Observation) (idle : Nat) : List QueryResult :=
  (answersBeforeReport shown).map .answer ++
    ((report? shown).toList.map .failed ++ List.replicate idle .exhausted)

/-- A stream after some calls: it has given what it owes, and has ended once there
was an error or nothing was left to try. -/
inductive QueryStream.Keeps (stream : QueryStream) (calls : List Call) : Prop
  | live (hlive : stream.Live) (hreport : report? (shownBy calls) = none)
      (hresults : calls.map Call.result = owed (shownBy calls) 0)
  | ended (hdone : stream.done = true) (idle : Nat)
      (hend : report? (shownBy calls) = none → 0 < idle ∧ stream.machine = ⟨none, []⟩)
      (hresults : calls.map Call.result = owed (shownBy calls) idle)

theorem shownBy_append (calls : List Call) (call : Call) :
    shownBy (calls ++ [call]) = shownBy calls ++ call.shown := by
  rw [shownBy, List.flatMap_append, List.flatMap_singleton, shownBy]

section Owed

variable {shown more : List Observation}

theorem owed_append_of_nil (shown : List Observation) (idle : Nat) :
    owed (shown ++ []) (idle + 1) = owed shown idle ++ [.exhausted] := by
  simp only [owed, List.append_nil, List.replicate_succ', List.append_assoc]

theorem owed_of_no_report (hreport : report? shown = none) :
    owed shown 0 = (answersBeforeReport shown).map .answer := by
  simp [owed, hreport]

/-- What is shown after no report adds to what is owed. -/
theorem owed_append_of_no_report (hreport : report? shown = none) (idle : Nat) :
    owed (shown ++ more) idle = owed shown 0 ++ owed more idle := by
  obtain ⟨hanswers, hmore⟩ := append_of_no_report hreport more
  rw [owed_of_no_report hreport, owed, owed, hanswers, hmore, List.map_append,
    List.append_assoc]

end Owed

/-- A call of a live stream adds what its search showed to what was owed. -/
theorem QueryStream.keeps_call_of_live {stream : QueryStream} {calls : List Call}
    (hlive : stream.Live) (hreport : report? (shownBy calls) = none)
    (hresults : calls.map Call.result = owed (shownBy calls) 0) {engine : Engine}
    (hends : (engine.call stream).result ≠ .unfinished) :
    (engine.next stream).2.1.Keeps (calls ++ [engine.call stream]) := by
  have hshown : (engine.call stream).shown = engine.shown stream := rfl
  have hadd : ∀ idle, owed (engine.shown stream) idle = [(engine.next stream).2.2] →
      (calls ++ [engine.call stream]).map Call.result =
        owed (shownBy (calls ++ [engine.call stream])) idle := by
    intro idle howed
    rw [shownBy_append, hshown, owed_append_of_no_report hreport, howed, List.map_append,
      hresults]
    rfl
  have hlater : report? (shownBy (calls ++ [engine.call stream])) =
      report? (engine.shown stream) := by
    rw [shownBy_append]
    exact (append_of_no_report hreport _).2
  cases engine.turn hlive with
  | failed error hfirst hanswers hdone hfailed =>
      refine .ended hdone 0 (fun hnone => ?_) (hadd 0 ?_)
      · rw [hlater, hfirst] at hnone
        cases hnone
      · simp [owed, hfirst, hanswers, hfailed]
  | answer found hnone hanswers hlive' hanswer =>
      apply Keeps.live hlive' (hlater.trans hnone)
      apply hadd 0
      simp [owed, hnone, hanswers, hanswer]
  | exhausted hnone hanswers hdone hmachine hexhausted =>
      apply Keeps.ended hdone 1 fun _ => ⟨Nat.one_pos, hmachine⟩
      apply hadd 1
      simp [owed, hnone, hanswers, hexhausted]
  | unfinished hunfinished => exact absurd hunfinished hends

/-- A call of a stream that has ended adds one exhaustion. -/
theorem QueryStream.keeps_call_of_done {stream : QueryStream} {calls : List Call}
    (hdone : stream.done = true) {idle : Nat}
    (hend : report? (shownBy calls) = none → 0 < idle ∧ stream.machine = ⟨none, []⟩)
    (hresults : calls.map Call.result = owed (shownBy calls) idle) (engine : Engine) :
    (engine.next stream).2.1.Keeps (calls ++ [engine.call stream]) := by
  have hnext := engine.next_of_done hdone
  have hresult : (engine.call stream).result = .exhausted := congrArg (·.2.2) hnext
  have hsame : shownBy (calls ++ [engine.call stream]) = shownBy calls ++ [] := by
    rw [shownBy_append]
    exact congrArg _ (engine.shown_of_done hdone)
  rw [hnext]
  apply Keeps.ended hdone (idle + 1)
  · intro hnone
    rw [hsame, List.append_nil] at hnone
    exact ⟨Nat.succ_pos idle, (hend hnone).2⟩
  · rw [hsame, owed_append_of_nil, List.map_append, hresults, List.map_singleton, hresult]

/-- A call keeps the protocol. -/
theorem QueryStream.Keeps.call {stream : QueryStream} {calls : List Call}
    (hkeeps : stream.Keeps calls) {engine : Engine}
    (hends : (engine.call stream).result ≠ .unfinished) :
    (engine.next stream).2.1.Keeps (calls ++ [engine.call stream]) := by
  cases hkeeps with
  | live hlive hreport hresults =>
      exact QueryStream.keeps_call_of_live hlive hreport hresults hends
  | ended hdone idle hend hresults =>
      exact QueryStream.keeps_call_of_done hdone hend hresults engine

namespace Workbench

/-- The call that a request makes of the stream at a place. -/
def call? (bench : Workbench) (place : Nat) : Request → Option Call
  | .pull other steps =>
      if other = place then bench.streams[place]?.map (bench.engine.withPatience steps).call
      else none
  | .query _ | .insert _ | .assertFile _ | .reconfigure _ => none

/-- The calls that some requests make of the stream at a place. -/
def callsAt (place : Nat) (bench : Workbench) : List Request → List Call
  | [] => []
  | request :: rest =>
      (bench.call? place request).toList ++ callsAt place (bench.serve request) rest

/-- The stream at a place keeps the protocol, or is not opened yet. -/
inductive Keeps (place : Nat) (bench : Workbench) (calls : List Call) : Prop
  | unopened (hplace : bench.streams[place]? = none) (hcalls : calls = [])
  | opened (stream : QueryStream) (hplace : bench.streams[place]? = some stream)
      (hkeeps : stream.Keeps calls)

theorem Keeps.of_streams {place : Nat} {bench bench' : Workbench} {calls : List Call}
    (hkeeps : bench.Keeps place calls) (hsame : bench'.streams[place]? = bench.streams[place]?) :
    bench'.Keeps place calls := by
  cases hkeeps with
  | unopened hplace hcalls => exact .unopened (hsame.trans hplace) hcalls
  | opened stream hplace hkeeps => exact .opened stream (hsame.trans hplace) hkeeps

/-- A stream that is opened at the end is live, and changes no other. -/
theorem Keeps.query {place : Nat} {bench : Workbench} {calls : List Call}
    (hkeeps : bench.Keeps place calls) (goals : Query) :
    (bench.serve (.query goals)).Keeps place calls := by
  have hstreams : (bench.serve (.query goals)).streams =
      bench.streams ++ [bench.engine.query goals] := rfl
  cases hkeeps with
  | opened stream hplace hkeeps =>
      refine .opened stream ?_ hkeeps
      rw [hstreams, List.getElem?_append_left (List.getElem?_eq_some_iff.mp hplace).1, hplace]
  | unopened hplace hcalls =>
      subst hcalls
      cases hnew : (bench.serve (.query goals)).streams[place]? with
      | none => exact .unopened hnew rfl
      | some stream =>
          have hmem : stream ∈ [bench.engine.query goals] := by
            rw [hstreams, List.getElem?_append_right (List.getElem?_eq_none_iff.mp hplace)] at hnew
            exact List.mem_of_getElem? hnew
          refine .opened stream hnew (.live ?_ rfl rfl)
          rw [List.mem_singleton.mp hmem]
          exact ⟨rfl, rfl⟩

/-- A pull of another stream is no call of this one. -/
theorem Keeps.pull {place : Nat} {bench : Workbench} {calls : List Call}
    (hkeeps : bench.Keeps place calls) (other steps : Nat)
    (hends : ∀ call ∈ bench.call? place (.pull other steps), call.result ≠ .unfinished) :
    (bench.serve (.pull other steps)).Keeps place
      (calls ++ (bench.call? place (.pull other steps)).toList) := by
  rw [serve, Workbench.pull]
  by_cases hother : other = place
  · subst hother
    rw [call?, if_pos rfl] at hends ⊢
    cases hkeeps with
    | unopened hplace hcalls =>
        rw [hplace, Option.map_none, Option.toList_none, List.append_nil]
        exact .unopened hplace hcalls
    | opened stream hplace hkeeps =>
        rw [hplace, Option.map_some] at hends ⊢
        refine .opened _ ?_ (hkeeps.call (hends _ rfl))
        exact List.getElem?_set_self (List.getElem?_eq_some_iff.mp hplace).1
  · rw [call?, if_neg hother, Option.toList_none, List.append_nil]
    apply hkeeps.of_streams
    split
    · rfl
    · exact List.getElem?_set_ne hother

theorem Keeps.serve {place : Nat} {bench : Workbench} {calls : List Call}
    (hkeeps : bench.Keeps place calls) (request : Request)
    (hends : ∀ call ∈ bench.call? place request, call.result ≠ .unfinished) :
    (bench.serve request).Keeps place (calls ++ (bench.call? place request).toList) := by
  cases request with
  | pull other steps => exact hkeeps.pull other steps hends
  | query goals =>
      rw [call?, Option.toList_none, List.append_nil]
      exact hkeeps.query goals
  | insert statements | assertFile path | reconfigure maxDepth =>
      rw [call?, Option.toList_none, List.append_nil]
      exact hkeeps.of_streams rfl

theorem Keeps.serveAll {place : Nat} {bench : Workbench} {calls : List Call}
    (hkeeps : bench.Keeps place calls) {requests : List Request}
    (hends : ∀ call ∈ bench.callsAt place requests, call.result ≠ .unfinished) :
    (bench.serveAll requests).Keeps place (calls ++ bench.callsAt place requests) := by
  induction requests generalizing bench calls with
  | nil => simpa [Workbench.serveAll, callsAt] using hkeeps
  | cons request requests ih =>
      rw [callsAt, ← List.append_assoc]
      refine ih (hkeeps.serve request fun call hcall => ?_) fun call hcall => ?_
      · exact hends call (List.mem_append_left _ (Option.mem_toList.mpr hcall))
      · exact hends call (List.mem_append_right _ hcall)

end Workbench

/-- Whatever an engine with its sink is asked for, and whichever of its streams
take turns: the results of each stream whose pulls all end are the answers that its
search showed before the first report, then that error if there was one, and then
exhaustion.  It is exhausted without an error only when nothing is left to try, and
once it has ended, asking it changes neither the stream nor the engine. -/
theorem stream_follows_protocol (engine : Engine) (requests : List Request) (place : Nat)
    (hends : ∀ call ∈ Workbench.callsAt place ⟨engine, []⟩ requests,
      call.result ≠ .unfinished) :
    let calls := Workbench.callsAt place ⟨engine, []⟩ requests
    let shown := shownBy calls
    ∃ idle, calls.map Call.result =
        (answersBeforeReport shown).map .answer ++
          ((report? shown).toList.map .failed ++ List.replicate idle .exhausted) ∧
      ∀ stream ∈ (Workbench.serveAll ⟨engine, []⟩ requests).streams[place]?,
        (report? shown = none → 0 < idle → stream.machine = ⟨none, []⟩) ∧
        ((report? shown).isSome ∨ 0 < idle →
          ∀ later : Engine, later.next stream = (later, stream, .exhausted)) := by
  intro calls shown
  have hstart : Workbench.Keeps place ⟨engine, []⟩ [] := .unopened rfl rfl
  cases hstart.serveAll hends with
  | unopened hplace hcalls =>
      refine ⟨0, ?_, fun stream hstream => ?_⟩
      · have hnone : calls = [] := hcalls
        simp only [shown, hnone]
        rfl
      · rw [hplace] at hstream
        cases hstream
  | opened stream hplace hkeeps =>
      have hsame : ∀ other ∈ (Workbench.serveAll ⟨engine, []⟩ requests).streams[place]?,
          other = stream := by
        intro other hother
        rw [hplace] at hother
        exact (Option.some.inj hother).symm
      cases hkeeps with
      | live hlive hreport hresults =>
          have hnone : report? shown = none := hreport
          refine ⟨0, hresults, fun other hother => ⟨fun _ hidle => absurd hidle (by simp), ?_⟩⟩
          rintro (hsome | hidle)
          · rw [hnone] at hsome
            cases hsome
          · exact absurd hidle (by simp)
      | ended hdone idle hend hresults =>
          refine ⟨idle, hresults, fun other hother => ?_⟩
          rw [hsame other hother]
          exact ⟨fun hnone _ => (hend hnone).2, fun _ later => later.next_of_done hdone⟩

/-- The program `p(a). p(X) :- writeln(X). p(b).` -/
def tellingProgram : List Statement :=
  [.clause (.fact ⟨"p", [.atom "a"]⟩),
    .clause (.rule ⟨"p", [.var "X"]⟩ [.fact ⟨"writeln", [.var "X"]⟩]),
    .clause (.fact ⟨"p", [.atom "b"]⟩)]

/-- An engine whose output is refused. -/
def refusedEngine : Engine :=
  (Engine.fresh none (.fresh (some 0)) .empty).insertAll tellingProgram

/-- Two streams that take turns, of which only the first comes to write. -/
def turns : List Request :=
  [.query [.fact ⟨"p", [.var "X"]⟩], .query [.fact ⟨"=", [.var "X", .atom "a"]⟩],
    .pull 0 20, .pull 0 20, .pull 1 20, .pull 0 20, .pull 1 20]

/-- A result as far as it can be compared: whether it is an answer, and its error. -/
def QueryResult.sort : QueryResult → Bool × Option ResolveError
  | .answer _ => (true, none)
  | .failed error => (false, some error)
  | .exhausted | .unfinished => (false, none)

def QueryResult.finished : QueryResult → Bool
  | .unfinished => false
  | .answer _ | .exhausted | .failed _ => true

theorem ends_of_all {calls : List Call}
    (hcalls : calls.all (fun call => call.result.finished) = true) :
    ∀ call ∈ calls, call.result ≠ .unfinished := by
  intro call hcall hunfinished
  have hfinished := List.all_eq_true.mp hcalls call hcall
  rw [hunfinished] at hfinished
  cases hfinished

/-- The search of the first stream finds two answers, the second after the refused
write and in the same pull: the stream gives the first and then the error, and the
other stream sees nothing of it. -/
theorem refused_write_ends_its_stream :
    let calls := fun place => Workbench.callsAt place ⟨refusedEngine, []⟩ turns
    ((calls 0).map (QueryResult.sort ∘ Call.result) =
        [(true, none), (false, some (.output .closed)), (false, none)] ∧
      (shownBy (calls 0)).countP Observation.isAnswer = 2 ∧
      (calls 1).map (QueryResult.sort ∘ Call.result) = [(true, none), (false, none)]) ∧
    ∃ idle, (calls 0).map Call.result =
        (answersBeforeReport (shownBy (calls 0))).map .answer ++
          ((report? (shownBy (calls 0))).toList.map .failed ++ List.replicate idle .exhausted) ∧
      ∀ stream ∈ (Workbench.serveAll ⟨refusedEngine, []⟩ turns).streams[0]?,
        (report? (shownBy (calls 0)) = none → 0 < idle → stream.machine = ⟨none, []⟩) ∧
        ((report? (shownBy (calls 0))).isSome ∨ 0 < idle →
          ∀ later : Engine, later.next stream = (later, stream, .exhausted)) :=
  ⟨by decide +kernel,
    stream_follows_protocol refusedEngine turns 0 (ends_of_all (by decide +kernel))⟩

end Horn
