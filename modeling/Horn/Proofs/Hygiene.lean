/-
Streams opened on one engine, served in any order.  Each configuration has its
own supply of fresh names and all of them share one store, and still no stream
ever meets a fresh name that the supply of its configuration has yet to hand
out.
-/
import Horn.Proofs.Answers
import Horn.Proofs.Names

namespace Horn

/-- A name with a stem and a number below the next one. -/
def Numbered (stem : String) (next : Nat) (name : Var) : Prop :=
  ∃ number < next, name = stem ++ toString number

theorem Numbered.mono {stem : String} {next later : Nat} {name : Var}
    (hname : Numbered stem next name) (hlater : next ≤ later) : Numbered stem later name := by
  obtain ⟨number, hlt, rfl⟩ := hname
  exact ⟨number, Nat.lt_of_lt_of_le hlt hlater, rfl⟩

/-- A name that looks like a fresh one: the stem, and digits after it. -/
def LooksFresh (name : Var) : Prop :=
  ∃ digits : List Char, digits ≠ [] ∧ (∀ c ∈ digits, c.isDigit = true) ∧
    name.toList = freshStem.toList ++ digits

theorem looksFresh_freshName (number : Nat) : LooksFresh (freshStem ++ toString number) := by
  refine ⟨Nat.toDigits 10 number, Nat.toDigits_ne_nil, fun c hc => isDigit_of_mem_digits hc, ?_⟩
  rw [String.toList_append]
  exact congrArg _ (String.toList_ofList)

theorem not_looksFresh {name : Var} (hname : name.toList.take 3 ≠ freshStem.toList) :
    ¬ LooksFresh name := by
  rintro ⟨digits, _, _, hchars⟩
  rw [hchars] at hname
  exact hname rfl

/-- A name that looks like a fresh one has been handed out. -/
def Issued (fresh : Nat) (name : Var) : Prop :=
  LooksFresh name → Numbered freshStem fresh name

theorem Issued.mono {fresh later : Nat} {name : Var} (hname : Issued fresh name)
    (hlater : fresh ≤ later) : Issued later name :=
  fun hlooks => (hname hlooks).mono hlater

theorem Issued.older {fresh : Nat} {name : Var} (hname : Issued fresh name) :
    Older fresh name := by
  rintro number rfl
  obtain ⟨issued, hlt, heq⟩ := hname (looksFresh_freshName number)
  rwa [freshName_injective heq]

/-- Names of the store do not look like fresh ones. -/
theorem Numbered.issued {next fresh : Nat} {name : Var} (hname : Numbered storeStem next name) :
    Issued fresh name := by
  obtain ⟨number, _, rfl⟩ := hname
  refine fun hlooks => absurd hlooks (not_looksFresh fun hstem => ?_)
  rw [String.toList_append] at hstem
  exact absurd (congrArg (List.take 2) hstem) (by simp [storeStem, freshStem])

/-- All variables in a store carry numbers that it has handed out. -/
def Theory.Numbered (theory : Theory) : Prop :=
  theory.Over (Horn.Numbered storeStem theory.nextVar)

namespace Theory

theorem Numbered.insert {theory : Theory} (htheory : theory.Numbered) (clause : Clause) :
    (theory.insert clause).Numbered := by
  have hgrows : theory.nextVar ≤ (theory.insert clause).nextVar := Nat.le_add_right _ _
  have htheory : theory.All fun stored => ∀ name ∈ stored.occurrences,
      Horn.Numbered storeStem (theory.insert clause).nextVar name :=
    fun signature stored hstored name hname =>
      (htheory signature stored hstored name hname).mono hgrows
  refine htheory.insert fun name hname => ?_
  rw [Clause.renameApart, Clause.renameAll, Clause.occurrences_rename] at hname
  obtain ⟨source, hsource, rfl⟩ := List.mem_map.mp hname
  obtain ⟨number, _, hlt, heq⟩ := clause.image_lt theory.nextVar storeStem hsource
  exact ⟨number, hlt, heq⟩

theorem Numbered.insertAll {theory : Theory} (htheory : theory.Numbered)
    (statements : List Statement) : (theory.insertAll statements).Numbered := by
  induction statements generalizing theory with
  | nil => exact htheory
  | cons statement statements ih =>
      cases statement with
      | query goals => exact ih htheory
      | clause clause => exact ih (htheory.insert clause)

theorem numbered_ofStatements (statements : List Statement) :
    (ofStatements statements).Numbered :=
  Numbered.insertAll (all_empty _) statements

end Theory

theorem Environment.numbered_recordAll {env : Environment} (henv : env.theory.Numbered)
    (events : List Event) : (env.recordAll events).theory.Numbered := by
  induction events generalizing env with
  | nil => exact henv
  | cons event events ih =>
      cases event with
      | wrote text => exact ih henv
      | stored clause => exact ih (henv.insert clause)
      | reported error => exact ih henv

/-- The store's variables are numbered, and a machine has no fresh names but
those handed out. -/
structure Search.Clean (search : Search) : Prop where
  store : search.env.theory.Numbered
  machine : search.machine.Over (Issued search.nextFresh)

theorem Search.Clean.advance {limit : Option Nat} {search : Search} (hsearch : search.Clean) :
    (search.advance limit).Clean := by
  refine ⟨Environment.numbered_recordAll hsearch.store _, Machine.Over.step ?_ ?_ ?_⟩
  · exact hsearch.machine.mono fun _ hname => hname.mono search.machine.le_nextFresh_step
  · exact fun signature clause hclause name hname =>
      (hsearch.store signature clause hclause name hname).issued
  · exact fun number _ hlt _ => ⟨number, hlt, rfl⟩

theorem Search.Clean.pullUpTo {limit : Option Nat} {search : Search} (hsearch : search.Clean)
    (fuel : Nat) :
    (search.pullUpTo limit fuel).1.Clean ∧
      search.nextFresh ≤ (search.pullUpTo limit fuel).1.nextFresh := by
  have hadvance : ∀ later : Search, later.Clean ∧ search.nextFresh ≤ later.nextFresh →
      (later.advance limit).Clean ∧ search.nextFresh ≤ (later.advance limit).nextFresh :=
    fun later hlater =>
      ⟨hlater.1.advance, Nat.le_trans hlater.2 later.machine.le_nextFresh_step⟩
  exact pullUpTo_of_advance hadvance ⟨hsearch, Nat.le_refl _⟩ fuel

/-- An engine and the streams that were opened on it. -/
structure Workbench where
  engine : Engine
  streams : List QueryStream

/-- What an engine with open streams is asked for. -/
inductive Request
  /-- Open one more stream. -/
  | query (goals : Query)
  /-- Advance the stream at a place by at most so many steps, up to its next
  answer. -/
  | pull (place steps : Nat)
  | insert (statements : List Statement)
  /-- Store the clauses of a compiled file; one with any error adds nothing. -/
  | assertFile (path : String)
  | reconfigure (maxDepth : Option Nat)

/-- Give up pulls after another number of steps. -/
def Engine.withPatience (engine : Engine) (patience : Nat) : Engine :=
  { engine with patience }

/-- The compiled file's statements, none if it cannot be read. -/
def Engine.compiledAt (engine : Engine) (path : String) : List Statement :=
  match engine.env.files.loadCompiled path with
  | .ok statements => statements
  | .error _ => []

namespace Workbench

/-- Advance the stream at a place. -/
def pull (bench : Workbench) (place steps : Nat) : Workbench :=
  match bench.streams[place]? with
  | none => bench
  | some stream =>
      let next := (bench.engine.withPatience steps).next stream
      ⟨next.1, bench.streams.set place next.2.1⟩

def serve (bench : Workbench) : Request → Workbench
  | .query goals => { bench with streams := bench.streams ++ [bench.engine.query goals] }
  | .pull place steps => bench.pull place steps
  | .insert statements => { bench with engine := bench.engine.insertAll statements }
  | .assertFile path =>
      { bench with engine := bench.engine.insertAll (bench.engine.compiledAt path) }
  | .reconfigure maxDepth => { bench with engine := bench.engine.reconfigured maxDepth }

def serveAll (bench : Workbench) (requests : List Request) : Workbench :=
  requests.foldl serve bench

end Workbench

/-- A stream has no fresh names but those that its resolver has handed out. -/
structure QueryStream.Clean (engine : Engine) (stream : QueryStream) : Prop where
  opened : stream.resolver ≤ engine.current
  machine : stream.machine.Over (Issued (engine.resolverAt stream.resolver).nextFresh)

/-- The store's variables are numbered, and every stream is clean. -/
structure Workbench.Clean (bench : Workbench) : Prop where
  store : bench.engine.env.theory.Numbered
  streams : ∀ stream ∈ bench.streams, stream.Clean bench.engine

/-- An engine that has all the resolvers of another, each with no fewer names
handed out. -/
structure Engine.Follows (earlier later : Engine) : Prop where
  current : earlier.current ≤ later.current
  nextFresh : ∀ place ≤ earlier.current,
    (earlier.resolverAt place).nextFresh ≤ (later.resolverAt place).nextFresh

theorem QueryStream.Clean.mono {earlier later : Engine} (hfollows : earlier.Follows later)
    {stream : QueryStream} (hstream : stream.Clean earlier) : stream.Clean later where
  opened := Nat.le_trans hstream.opened hfollows.current
  machine := hstream.machine.mono fun _ hname =>
    hname.mono (hfollows.nextFresh stream.resolver hstream.opened)

namespace Engine

theorem current_setResolver (engine : Engine) (place : Nat) (resolver : Resolver) :
    (engine.setResolver place resolver).current = engine.current := by
  rw [setResolver]
  split
  · exact List.length_set
  · rfl

theorem env_setResolver (engine : Engine) (place : Nat) (resolver : Resolver) :
    (engine.setResolver place resolver).env = engine.env := by
  rw [setResolver]
  split <;> rfl

theorem follows_withPatience (engine : Engine) (patience : Nat) :
    engine.Follows (engine.withPatience patience) :=
  ⟨Nat.le_refl _, fun _ _ => Nat.le_refl _⟩

theorem follows_reconfigured (engine : Engine) (maxDepth : Option Nat) :
    engine.Follows (engine.reconfigured maxDepth) where
  current := by simp [current, reconfigured]
  nextFresh place hplace := by rw [engine.resolverAt_reconfigured maxDepth hplace]

section Pull

variable (engine : Engine) (place : Nat) (machine : Machine)

/-- The search that a pull advances, after it. -/
def pulled : Search :=
  let resolver := engine.resolverAt place
  (Search.pullUpTo resolver.maxDepth engine.patience
    ⟨engine.env, resolver.nextFresh, machine, none⟩).1

theorem env_pull : (engine.pull place machine).1.env = (engine.pulled place machine).env :=
  env_setResolver _ _ _

theorem current_pull : (engine.pull place machine).1.current = engine.current :=
  current_setResolver _ _ _

variable {engine place machine}

theorem nextFresh_pull {other : Nat} (hplace : place ≤ engine.current)
    (hother : other ≤ engine.current) :
    ((engine.pull place machine).1.resolverAt other).nextFresh =
      if place = other then (engine.pulled place machine).nextFresh
      else (engine.resolverAt other).nextFresh := by
  have heq := resolverAt_setResolver { engine with env := (engine.pulled place machine).env }
    { engine.resolverAt place with nextFresh := (engine.pulled place machine).nextFresh }
    hplace hother
  refine (congrArg Resolver.nextFresh heq).trans ?_
  split <;> rfl

end Pull

/-- Pulling a clean stream leaves it clean, and hands out more names of its
resolver and of no other. -/
theorem clean_pull {engine : Engine} {stream : QueryStream}
    (hstore : engine.env.theory.Numbered) (hstream : stream.Clean engine) :
    let after := engine.pull stream.resolver stream.machine
    after.1.env.theory.Numbered ∧ engine.Follows after.1 ∧
      ∀ failure done, QueryStream.Clean after.1 ⟨stream.resolver, after.2.1, failure, done⟩ := by
  intro after
  obtain ⟨place, machine, failure, done⟩ := stream
  obtain ⟨hplace, hmachine⟩ := hstream
  have hsearch : Search.Clean ⟨engine.env, (engine.resolverAt place).nextFresh, machine, none⟩ :=
    ⟨hstore, hmachine⟩
  obtain ⟨hclean, hgrows⟩ : (engine.pulled place machine).Clean ∧
      (engine.resolverAt place).nextFresh ≤ (engine.pulled place machine).nextFresh :=
    hsearch.pullUpTo engine.patience
  have hcurrent := engine.current_pull place machine
  refine ⟨?_, ⟨Nat.le_of_eq hcurrent.symm, fun other hother => ?_⟩,
    fun failure done => ⟨?_, ?_⟩⟩
  · rw [env_pull]
    exact hclean.store
  · rw [nextFresh_pull hplace hother]
    split
    · next hsame => exact hsame ▸ hgrows
    · exact Nat.le_refl _
  · exact hcurrent ▸ hplace
  · rw [nextFresh_pull hplace hplace, if_pos rfl]
    exact hclean.machine

/-- Asking a stream for an answer pulls its machine, unless it has ended or has an
error to tell first. -/
theorem next_eq_or (engine : Engine) (stream : QueryStream) :
    (∃ failure done result, engine.next stream =
      (engine, ⟨stream.resolver, stream.machine, failure, done⟩, result)) ∨
    let after := engine.pull stream.resolver stream.machine
    ∃ failure done result, engine.next stream =
      (after.1, ⟨stream.resolver, after.2.1, failure, done⟩, result) := by
  rw [next]
  split
  · exact Or.inl ⟨_, _, _, rfl⟩
  · split
    · exact Or.inl ⟨_, _, _, rfl⟩
    · refine Or.inr ?_
      simp only
      split <;> exact ⟨_, _, _, rfl⟩

theorem clean_next {engine : Engine} {stream : QueryStream}
    (hstore : engine.env.theory.Numbered) (hstream : stream.Clean engine) :
    let after := engine.next stream
    after.1.env.theory.Numbered ∧ engine.Follows after.1 ∧ after.2.1.Clean after.1 := by
  obtain ⟨failure, done, result, hnext⟩ | ⟨failure, done, result, hnext⟩ :=
    engine.next_eq_or stream
  · rw [hnext]
    exact ⟨hstore, ⟨Nat.le_refl _, fun _ _ => Nat.le_refl _⟩, ⟨hstream.opened, hstream.machine⟩⟩
  · rw [hnext]
    obtain ⟨hstored, hfollows, hclean⟩ := clean_pull hstore hstream
    exact ⟨hstored, hfollows, hclean failure done⟩

end Engine

namespace Workbench

theorem Clean.of_follows {bench : Workbench} (hbench : bench.Clean) {engine : Engine}
    (hstore : engine.env.theory.Numbered) (hfollows : bench.engine.Follows engine) :
    Clean ⟨engine, bench.streams⟩ where
  store := hstore
  streams stream hstream := (hbench.streams stream hstream).mono hfollows

theorem Clean.insertAll {bench : Workbench} (hbench : bench.Clean)
    (statements : List Statement) :
    Clean ⟨bench.engine.insertAll statements, bench.streams⟩ :=
  hbench.of_follows (hbench.store.insertAll statements) ⟨Nat.le_refl _, fun _ _ => Nat.le_refl _⟩

/-- The names of a query that do not look fresh are no fresh names, and a machine
that starts on it has no other. -/
theorem Clean.query {bench : Workbench} (hbench : bench.Clean) {goals : Query}
    (hgoals : ∀ name ∈ Query.occurrences goals, ¬ LooksFresh name) :
    Clean ⟨bench.engine, bench.streams ++ [bench.engine.query goals]⟩ where
  store := hbench.store
  streams stream hstream := by
    rcases List.mem_append.mp hstream with hstream | hstream
    · exact hbench.streams stream hstream
    · rw [List.mem_singleton.mp hstream]
      refine ⟨Nat.le_refl _, ⟨fun branch hbranch => ?_, fun clause hclause => nomatch hclause⟩⟩
      obtain rfl := List.mem_singleton.mp
        (show branch ∈ [⟨Bindings.empty, [.goals goals 0]⟩] from hbranch)
      exact ⟨Bindings.within_empty _, List.forall_mem_singleton.mpr
        fun name hname hlooks => absurd hlooks (hgoals name hname)⟩

theorem Clean.pull {bench : Workbench} (hbench : bench.Clean) (place steps : Nat) :
    (bench.pull place steps).Clean := by
  cases hplace : bench.streams[place]? with
  | none => rwa [Workbench.pull, hplace]
  | some stream =>
      have hurried : Clean ⟨bench.engine.withPatience steps, bench.streams⟩ :=
        hbench.of_follows hbench.store (bench.engine.follows_withPatience steps)
      obtain ⟨hstored, hfollows, hnext⟩ :=
        Engine.clean_next hurried.store (hurried.streams stream (List.mem_of_getElem? hplace))
      simp only [Workbench.pull, hplace]
      refine ⟨hstored, fun other hother => ?_⟩
      rcases List.mem_or_eq_of_mem_set hother with hother | rfl
      · exact (hurried.streams other hother).mono hfollows
      · exact hnext

/-- One request leaves every stream clean. -/
theorem Clean.serve {bench : Workbench} (hbench : bench.Clean) {request : Request}
    (hrequest : ∀ goals, request = .query goals →
      ∀ name ∈ Query.occurrences goals, ¬ LooksFresh name) :
    (bench.serve request).Clean := by
  cases request with
  | query goals => exact hbench.query (hrequest goals rfl)
  | pull place steps => exact hbench.pull place steps
  | insert statements => exact hbench.insertAll statements
  | assertFile path => exact hbench.insertAll _
  | reconfigure maxDepth =>
      exact hbench.of_follows hbench.store (bench.engine.follows_reconfigured maxDepth)

theorem Clean.serveAll {bench : Workbench} (hbench : bench.Clean) {requests : List Request}
    (hrequests : ∀ goals, .query goals ∈ requests →
      ∀ name ∈ Query.occurrences goals, ¬ LooksFresh name) :
    (bench.serveAll requests).Clean := by
  induction requests generalizing bench with
  | nil => exact hbench
  | cons request requests ih =>
      refine ih (hbench.serve ?_) fun goals hgoals =>
        hrequests goals (List.mem_cons_of_mem _ hgoals)
      rintro goals rfl
      exact hrequests goals List.mem_cons_self

end Workbench

/-- However the streams of an engine, insertions, files and new configurations
take turns, the variables of the store carry numbers that the store has handed
out, each stream has no fresh names but those its resolver has handed out, and
the copy of a clause that its resolver makes next has no name that occurs in the
stream. -/
theorem fresh_names_stay_fresh (program : List Statement) (engine : Engine)
    (hstore : engine.env.theory = Theory.ofStatements program) (requests : List Request)
    (hrequests : ∀ goals, .query goals ∈ requests →
      ∀ name ∈ Query.occurrences goals, ¬ LooksFresh name) :
    let bench := Workbench.serveAll ⟨engine, []⟩ requests
    bench.engine.env.theory.Over (Numbered storeStem bench.engine.env.theory.nextVar) ∧
    ∀ stream ∈ bench.streams,
      let fresh := (bench.engine.resolverAt stream.resolver).nextFresh
      stream.machine.Over (Issued fresh) ∧
      ∀ (clause : Clause), ∀ name ∈ clause.occurrences,
        stream.machine.Over (· ≠ (clause.renameApart freshStem fresh).2.image name) := by
  intro bench
  have hstart : Workbench.Clean ⟨engine, []⟩ := by
    refine ⟨?_, fun stream hstream => nomatch hstream⟩
    rw [hstore]
    exact Theory.numbered_ofStatements program
  have hbench : bench.Clean := hstart.serveAll hrequests
  refine ⟨hbench.store, fun stream hstream => ?_⟩
  have hmachine := (hbench.streams stream hstream).machine
  refine ⟨hmachine, fun clause name hname => hmachine.mono fun other hother heq => ?_⟩
  exact clause.not_older_image _ hname (heq ▸ hother.older)

/-- The program `p(f(Y)).` -/
def boxProgram : List Statement :=
  [.clause (.fact ⟨"p", [.fact "f" [.var "Y"]]⟩)]

def boxEngine : Engine :=
  (Engine.fresh none (.fresh none) .empty).insertAll boxProgram

/-- Three streams, of which the second stores a clause and the third is opened
after a change of the limit. -/
def boxRequests : List Request :=
  [.query [.fact ⟨"p", [.var "X"]⟩], .pull 0 10,
    .query [.fact ⟨"assert", [.fact "q" [.var "A"]]⟩, .fact ⟨"p", [.var "A"]⟩],
    .reconfigure (some 5), .query [.fact ⟨"p", [.var "_"]⟩], .pull 1 10, .pull 2 10]

/-- The supplies go apart: each of the two configurations has handed out its own
second name, while the store has taken in the second stream's variable under a
number of its own. -/
theorem streams_take_turns :
    let bench := Workbench.serveAll ⟨boxEngine, []⟩ boxRequests
    (bench.streams.map QueryStream.resolver = [0, 0, 1] ∧
      (bench.engine.resolverAt 0).nextFresh = 2 ∧ (bench.engine.resolverAt 1).nextFresh = 2 ∧
      bench.engine.env.theory.nextVar = 2) ∧
    bench.engine.env.theory.Over (Numbered storeStem bench.engine.env.theory.nextVar) ∧
    ∀ stream ∈ bench.streams,
      let fresh := (bench.engine.resolverAt stream.resolver).nextFresh
      stream.machine.Over (Issued fresh) ∧
      ∀ (clause : Clause), ∀ name ∈ clause.occurrences,
        stream.machine.Over (· ≠ (clause.renameApart freshStem fresh).2.image name) := by
  have hrequests : ∀ goals, .query goals ∈ boxRequests →
      ∀ name ∈ Query.occurrences goals, ¬ LooksFresh name := by
    intro goals hgoals name hname
    simp only [boxRequests, List.mem_cons, List.not_mem_nil, Request.query.injEq, reduceCtorEq,
      false_or, or_false] at hgoals
    have hplain : ∀ letter ∈ Query.occurrences goals, letter.toList.take 3 ≠ freshStem.toList := by
      rcases hgoals with rfl | rfl | rfl <;> decide
    exact not_looksFresh (hplain name hname)
  exact ⟨by decide +kernel, fresh_names_stay_fresh boxProgram boxEngine rfl boxRequests hrequests⟩

end Horn
