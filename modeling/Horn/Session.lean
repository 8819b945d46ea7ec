/-
A session: the engine, and the query that is being answered.
-/
import Horn.Answer
import Horn.Engine
import Horn.Source.Parser

namespace Horn

/-- Why an operation of a session is refused, or ends without an answer. -/
inductive SessionError
  | parse (error : ParseError)
  | read (path : String) (cause : SystemError)
  | load (path : String) (cause : CompiledError)
  | resolve (error : ResolveError)
  | noActiveQuery
  | unknownOption (key : String)
  | invalidValue (key value : String)
  | unfinished

/-- The pieces of a message, in the order in which they are written. -/
def SessionError.pieces : SessionError → List String
  | .parse error => ["parse error at ", error.message]
  | .read path cause => ["cannot read ", path, ": ", cause.message]
  | .load path cause => ["cannot load ", path, ": ", (LoadError.content cause).message]
  | .resolve error => error.pieces
  | .noActiveQuery => ["no active query"]
  | .unknownOption key => ["unknown option: ", key]
  | .invalidValue key value => ["invalid value for ", key, ": ", value]
  | .unfinished => ["search was given up"]

def SessionError.message (error : SessionError) : String :=
  String.join error.pieces

structure ActiveQuery where
  wanted : List Var
  stream : QueryStream

structure Session where
  engine : Engine
  active : Option ActiveQuery

inductive Executed
  | added
  | reply (reply : Reply)

inductive Followed
  | loaded (path : String) (statements : Nat)
  | set (key value : String)
  | next (reply : Reply)
  | quit

/-- A whole number for a setting: digits, after a plus sign or not, of a value
that fits into 64 bits. -/
def readSettingNumber? (text : String) : Option Nat :=
  let digits := match text.toList with
    | '+' :: digits => digits
    | digits => digits
  if digits.isEmpty ∨ !digits.all Char.isDigit then none
  else
    let value := digitsValue digits
    if value < UInt64.size then some value else none

namespace Session

def fresh (maxDepth : Option Nat) (sink : Sink) (files : Files) : Session :=
  ⟨Engine.fresh maxDepth sink files, none⟩

def hasActiveQuery (session : Session) : Bool :=
  session.active.isSome

def maxDepth (session : Session) : Option Nat :=
  session.engine.resolver.maxDepth

/-- The next answer of the active query.  The query stays active only if there
is one. -/
def next (session : Session) : Session × Except SessionError Reply :=
  match session.active with
  | none => (session, .error .noActiveQuery)
  | some active =>
      let (engine, stream, result) := session.engine.next active.stream
      match result with
      | .answer solution =>
          (⟨engine, some { active with stream }⟩,
            .ok (.answer (Answer.ofSolution active.wanted solution)))
      | .exhausted => (⟨engine, none⟩, .ok .exhausted)
      | .failed error => (⟨engine, none⟩, .error (.resolve error))
      | .unfinished => (⟨engine, some { active with stream }⟩, .error .unfinished)

/-- Make a query the active one and give its first answer. -/
def executeQuery (session : Session) (goals : Query) : Session × Except SessionError Reply :=
  ({ session with
    active := some ⟨Query.variables goals, session.engine.query goals⟩ }).next

/-- Read a query and execute it; a text that is none changes nothing. -/
def executeText (session : Session) (text : String) : Session × Except SessionError Reply :=
  match parseQuery text with
  | .error error => (session, .error (.parse error))
  | .ok goals => session.executeQuery goals

/-- Store a clause, or execute a query. -/
def execute (session : Session) : Statement → Session × Except SessionError Executed
  | .query goals =>
      let (session, result) := session.executeQuery goals
      (session, result.map .reply)
  | .clause clause =>
      ({ session with engine := session.engine.insertAll [.clause clause] }, .ok .added)

/-- Pull a stream to its end or its first error. -/
def drainUpTo (engine : Engine) : Nat → QueryStream → Engine × Option SessionError
  | 0, _ => (engine, some .unfinished)
  | fuel + 1, stream =>
      let (engine, stream, result) := engine.next stream
      match result with
      | .answer _ => drainUpTo engine fuel stream
      | .exhausted => (engine, none)
      | .failed error => (engine, some (.resolve error))
      | .unfinished => (engine, some .unfinished)

/-- Store the clauses of a file and run its queries to their ends, in order, up
to the first error. -/
def runAll (engine : Engine) : List Statement → Engine × Option SessionError
  | [] => (engine, none)
  | .clause clause :: rest => runAll (engine.insertAll [.clause clause]) rest
  | .query goals :: rest =>
      match drainUpTo engine engine.patience (engine.query goals) with
      | (engine, none) => runAll engine rest
      | (engine, some error) => (engine, some error)

/-- The statements of a file: program text, or a compiled program if its first
character that is no blank is a brace. -/
def readFile (files : Files) (path : String) : Except SessionError (List Statement) :=
  match files.readText path with
  | .error cause => .error (.read path cause)
  | .ok text =>
      if (dropBlanks text.toList).head? = some '\x7b' then
        match Compiled.decodeAll text.toUTF8.toList with
        | .ok statements => .ok statements
        | .error cause => .error (.load path cause)
      else
        match parseProgram text with
        | .ok statements => .ok statements
        | .error error => .error (.parse error)

/-- Load a file.  It is read to its end before anything is stored. -/
def load (session : Session) (path : String) : Session × Except SessionError Followed :=
  match readFile session.engine.env.files path with
  | .error error => (session, .error error)
  | .ok statements =>
      let (engine, error) := runAll session.engine statements
      ({ session with engine },
        match error with
        | none => .ok (.loaded path statements.length)
        | some error => .error error)

/-- Change a setting.  The only one is the depth limit: a number, or a word for
there being none. -/
def setOption (session : Session) (key value : String) : Session × Except SessionError Followed :=
  if key = "max_depth" then
    if value = "none" ∨ value = "unlimited" then
      ({ session with engine := session.engine.reconfigured none }, .ok (.set key value))
    else
      match readSettingNumber? value with
      | some most =>
          ({ session with engine := session.engine.reconfigured (some most) },
            .ok (.set key value))
      | none => (session, .error (.invalidValue key value))
  else (session, .error (.unknownOption key))

def follow (session : Session) : Directive → Session × Except SessionError Followed
  | .load path => session.load path
  | .set key value => session.setOption key value
  | .next =>
      let (session, result) := session.next
      (session, result.map .next)
  | .quit => (session, .ok .quit)

end Session

end Horn
