/-
Goals that the engine proves by itself, and what proving them does to the
world outside a search.
-/
import Horn.Files
import Horn.Sink
import Horn.Theory
import Horn.Unify

namespace Horn

/-- Errors that are reported while a search goes on. -/
inductive ResolveError
  | load (path : String) (cause : LoadError)
  | output (cause : SystemError)
deriving Repr, DecidableEq

/-- The pieces of a message, in the order in which they are written. -/
def ResolveError.pieces : ResolveError → List String
  | .load path cause => ["failed to load ", path, ": ", cause.message]
  | .output cause => ["failed to write output: ", cause.message]

def ResolveError.message (error : ResolveError) : String :=
  String.join error.pieces

inductive Event
  | wrote (receipt : Sink.Receipt)
  | stored (clause : Clause)
  | reported (error : ResolveError)

/-- What all searches share. -/
structure Environment where
  theory : Theory
  sink : Sink
  files : Files

/-- The effect of an event.  Reports concern only the search that makes them. -/
def Environment.record (env : Environment) : Event → Environment
  | .wrote receipt => { env with sink := env.sink.put receipt }
  | .stored clause => { env with theory := env.theory.insert clause }
  | .reported _ => env

def Environment.recordAll (env : Environment) (events : List Event) : Environment :=
  events.foldl Environment.record env

/-- The outcome of a goal that has at most one solution. -/
structure Verdict where
  events : List Event
  result : Option Bindings

inductive Builtin
  | unify (left right : Term)
  | write (text : Term)
  | succeed
  | fail
  | assert (added : Term)

def Builtin.ofFact? (goal : Fact) : Option Builtin :=
  match goal.functor, goal.args with
  | "=", [left, right] => some (.unify left right)
  | "writeln", [text] => some (.write text)
  | "true", [] => some .succeed
  | "fail", [] => some .fail
  | "assert", [added] => some (.assert added)
  | _, _ => none

/-- The clauses among some statements. -/
def clausesOf (statements : List Statement) : List Clause :=
  statements.filterMap fun statement =>
    match statement with
    | .clause clause => some clause
    | .query _ => none

/-- Write a term and a line end, and see to it that they are passed on. -/
def writeLine (env : Environment) (bindings : Bindings) (term : Term) : Verdict :=
  let receipt := env.sink.offer [.write (bindings.ground term).render, .write "\n", .flush]
  match receipt.refusal with
  | none => ⟨[.wrote receipt], some bindings⟩
  | some cause => ⟨[.wrote receipt, .reported (.output cause)], none⟩

/-- Store a fact, or the clauses of a compiled file that is named by a string.
A file with any error adds nothing. -/
def assertTerm (env : Environment) (bindings : Bindings) (term : Term) : Verdict :=
  match bindings.ground term with
  | .fact functor args => ⟨[.stored (.fact ⟨functor, args⟩)], some bindings⟩
  | .atom name => ⟨[.stored (.fact ⟨name, []⟩)], some bindings⟩
  | .str path =>
      match env.files.loadCompiled path with
      | .ok statements => ⟨(clausesOf statements).map .stored, some bindings⟩
      | .error cause => ⟨[.reported (.load path cause)], none⟩
  | .var _ => ⟨[], none⟩
  | .num _ => ⟨[], none⟩

def Builtin.prove (env : Environment) (bindings : Bindings) : Builtin → Verdict
  | .unify left right => ⟨[], Horn.unify left right bindings⟩
  | .write text => writeLine env bindings text
  | .succeed => ⟨[], some bindings⟩
  | .fail => ⟨[], none⟩
  | .assert added => assertTerm env bindings added

end Horn
