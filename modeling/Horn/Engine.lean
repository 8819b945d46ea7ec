/-
The engine: an environment, and the configurations under which searches of it
run.  A new configuration starts with the fresh names of the one before it, and
from then on the two count on their own.
-/
import Horn.Search.Machine

namespace Horn

/-- A depth limit and a supply of fresh names, shared by all streams that were
opened on it. -/
structure Resolver where
  maxDepth : Option Nat
  nextFresh : Nat
deriving Repr, DecidableEq

/-- Resolvers are kept for the streams opened on them, the current one last. -/
structure Engine where
  env : Environment
  older : List Resolver
  resolver : Resolver
  /-- The number of steps after which a pull is given up. -/
  patience : Nat

/-- A number of steps that no pull gets to. -/
def defaultPatience : Nat := 1000000000000000000

/-- A stream's resolver, by its place among the engine's, its machine, and the
slot for the first error that its search reports. -/
structure QueryStream where
  resolver : Nat
  machine : Machine
  failure : Option ResolveError
  done : Bool

inductive QueryResult
  | answer (bindings : Bindings)
  | exhausted
  | failed (error : ResolveError)
  | unfinished

namespace Engine

def fresh (maxDepth : Option Nat) (sink : Sink) (files : Files) : Engine :=
  ⟨⟨Theory.empty, sink, files⟩, [], ⟨maxDepth, 0⟩, defaultPatience⟩

def current (engine : Engine) : Nat :=
  engine.older.length

def resolverAt (engine : Engine) (place : Nat) : Resolver :=
  engine.older[place]?.getD engine.resolver

def setResolver (engine : Engine) (place : Nat) (resolver : Resolver) : Engine :=
  if place < engine.older.length then { engine with older := engine.older.set place resolver }
  else { engine with resolver }

theorem resolverAt_setResolver (engine : Engine) {place other : Nat} (resolver : Resolver)
    (hplace : place ≤ engine.current) (hother : other ≤ engine.current) :
    (engine.setResolver place resolver).resolverAt other =
      if place = other then resolver else engine.resolverAt other := by
  simp only [current] at hplace hother
  by_cases hlt : place < engine.older.length
  · simp only [setResolver, hlt, if_true, resolverAt, List.getElem?_set]
    split <;> rfl
  · have heq : place = engine.older.length := by omega
    subst heq
    simp only [setResolver, Nat.lt_irrefl, if_false, resolverAt]
    by_cases hsame : engine.older.length = other
    · subst hsame
      simp
    · have hbelow : other < engine.older.length := by omega
      simp [hsame, hbelow]

/-- Use another limit from now on.  Streams that are open keep the old one. -/
def reconfigured (engine : Engine) (maxDepth : Option Nat) : Engine :=
  { engine with
    older := engine.older ++ [engine.resolver]
    resolver := { engine.resolver with maxDepth } }

/-- A resolver that is there before a reconfiguration is there after it. -/
theorem resolverAt_reconfigured (engine : Engine) (maxDepth : Option Nat) {place : Nat}
    (hplace : place ≤ engine.current) :
    (engine.reconfigured maxDepth).resolverAt place = engine.resolverAt place := by
  simp only [current] at hplace
  simp only [resolverAt, reconfigured, List.getElem?_append]
  by_cases hlt : place < engine.older.length
  · simp [hlt]
  · have heq : place = engine.older.length := by omega
    simp [heq]

/-- Store some statements; queries among them are left out. -/
def insertAll (engine : Engine) (statements : List Statement) : Engine :=
  { engine with env := { engine.env with theory := engine.env.theory.insertAll statements } }

/-- Advance a search of the resolver at a place to its next answer.  Gives the
first error that was reported on the way. -/
def pull (engine : Engine) (place : Nat) (machine : Machine) :
    Engine × Machine × Option ResolveError × Pull :=
  let resolver := engine.resolverAt place
  let pulled := Search.pullUpTo resolver.maxDepth engine.patience
    ⟨engine.env, resolver.nextFresh, machine, none⟩
  let search := pulled.1
  (({ engine with env := search.env }).setResolver place
      { resolver with nextFresh := search.nextFresh },
    search.machine, search.failure, pulled.2)

def query (engine : Engine) (goals : Query) : QueryStream :=
  ⟨engine.current, .ofQuery goals .empty, none, false⟩

/-- Ask a stream for its next answer.  An error in its slot comes first, whether it
was there before or is reported while the answer is searched for; it is taken out
and ends the stream, as exhaustion does. -/
def next (engine : Engine) (stream : QueryStream) : Engine × QueryStream × QueryResult :=
  if stream.done then (engine, stream, .exhausted)
  else match stream.failure with
    | some error => (engine, { stream with failure := none, done := true }, .failed error)
    | none =>
        let (engine, machine, failure, pulled) := engine.pull stream.resolver stream.machine
        match pulled, failure with
        | .unfinished, _ => (engine, { stream with machine, failure }, .unfinished)
        | .answer _, some error => (engine, { stream with machine, done := true }, .failed error)
        | .answer bindings, none => (engine, { stream with machine }, .answer bindings)
        | .exhausted, some error => (engine, { stream with machine, done := true }, .failed error)
        | .exhausted, none => (engine, { stream with machine, done := true }, .exhausted)

/-- At most `count` solutions of a search under the current resolver, whatever
errors are reported.  Nothing is searched for beyond them. -/
def solutions (engine : Engine) : Nat → Machine → Engine × List Bindings
  | 0, _ => (engine, [])
  | count + 1, machine =>
      let (engine, machine, _, pulled) := engine.pull engine.current machine
      match pulled with
      | .answer bindings =>
          let (engine, more) := solutions engine count machine
          (engine, bindings :: more)
      | _ => (engine, [])

end Engine

end Horn
