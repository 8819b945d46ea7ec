/-
The interactive shell: a prompt, a line, and the text that answers it.
-/
import Horn.Session

namespace Horn

/-- Why a line gives no text to show. -/
inductive ShellError
  | session (error : SessionError)
  | parse (error : ParseError)
  | system (error : SystemError)

/-- The pieces of a message, in the order in which they are written. -/
def ShellError.pieces : ShellError → List String
  | .session error => error.pieces
  | .parse error => ["parse error at ", error.message]
  | .system error => ["i/o error: ", error.message]

def ShellError.message (error : ShellError) : String :=
  String.join error.pieces

structure Shell where
  session : Session
  quit : Bool

/-- The text for a directive's result. -/
def Followed.render : Followed → String
  | .loaded path statements =>
      "Loaded " ++ toString statements ++ " statements from " ++ path ++ "."
  | .set key value => key ++ " = " ++ value
  | .next reply => reply.render
  | .quit => ""

/-- The first line of the shell. -/
def banner : String :=
  "sldlog: Horn-clause logic shell. Type :quit to exit."

def prompt : String := "?- "

/-- The lines of some bytes, without their line ends. -/
def splitLines (bytes : Bytes) : List Bytes :=
  let step (b : UInt8) (lines : List Bytes) : List Bytes :=
    if b = Json.byte '\n' then [] :: lines
    else match lines with
      | [] => [[b]]
      | line :: rest => (b :: line) :: rest
  let lines := bytes.foldr step []
  lines.map fun line => if line.getLast? = some (Json.byte '\r') then line.dropLast else line

namespace Shell

def ofSession (session : Session) : Shell :=
  ⟨session, false⟩

/-- Load a file into the session. -/
def load (shell : Shell) (path : String) : Shell × Except ShellError Unit :=
  let (session, result) := shell.session.load path
  ({ shell with session },
    match result with
    | .ok _ => .ok ()
    | .error error => .error (.session error))

/-- Carry out commands in order, up to the first error or to the one that
quits, and give the texts to show. -/
def runCommands (shell : Shell) : List Command → Shell × Except ShellError (List String)
  | [] => (shell, .ok [])
  | .statement statement :: rest =>
      let (session, result) := shell.session.execute statement
      match result with
      | .error error => ({ shell with session }, .error (.session error))
      | .ok .added => runCommands { shell with session } rest
      | .ok (.reply reply) =>
          let (shell, more) := runCommands { shell with session } rest
          (shell, more.map (reply.render :: ·))
  | .directive directive :: rest =>
      let (session, result) := shell.session.follow directive
      match result with
      | .error error => ({ shell with session }, .error (.session error))
      | .ok .quit => (⟨session, true⟩, .ok [])
      | .ok followed =>
          let (shell, more) := runCommands { shell with session } rest
          (shell, more.map (followed.render :: ·))

/-- Process a line.  A semicolon asks for the next answer, and says so if there
is no query to ask; a line with a fault anywhere carries out nothing. -/
def processLine (shell : Shell) (line : String) : Shell × Except ShellError String :=
  let text := trimBlanks line.toList
  if text = [] then (shell, .ok "")
  else if text = [';'] then
    if shell.session.hasActiveQuery then
      let (session, result) := shell.session.next
      ({ shell with session },
        match result with
        | .ok reply => .ok reply.render
        | .error error => .error (.session error))
    else (shell, .ok Reply.exhausted.render)
  else
    match parseCommands (String.ofList text) with
    | .error error => (shell, .error (.parse error))
    | .ok commands =>
        let (shell, result) := shell.runCommands commands
        (shell, result.map ("\n".intercalate ·))

/-- Make requests to the session's sink. -/
def print (shell : Shell) (requests : List Sink.Request) : Shell × Except ShellError Unit :=
  let env := shell.session.engine.env
  let receipt := env.sink.offer requests
  let engine := { shell.session.engine with env := env.record (.wrote receipt) }
  ({ shell with session := { shell.session with engine } },
    match receipt.refusal with
    | none => .ok ()
    | some cause => .error (.system cause))

/-- Answer one line of input.  An error of the line is shown like any text. -/
def answerLine (shell : Shell) (line : Bytes) : Shell × Except ShellError Unit :=
  match String.fromUTF8? ⟨line.toArray⟩ with
  | none => (shell, .error (.system .notText))
  | some line =>
      let (shell, result) := shell.processLine line
      match result with
      | .ok text => if text = "" then (shell, .ok ()) else shell.print [.write text, .write "\n"]
      | .error error => shell.print (("Error: " :: error.pieces ++ ["\n"]).map .write)

/-- Prompt and answer for each line, up to the end of the input or the line
that quits. -/
def runLines (shell : Shell) : List Bytes → Shell × Except ShellError Unit
  | [] => if shell.quit then (shell, .ok ()) else shell.print [.write prompt, .flush]
  | line :: rest =>
      if shell.quit then (shell, .ok ())
      else
        match shell.print [.write prompt, .flush] with
        | (shell, .error error) => (shell, .error error)
        | (shell, .ok ()) =>
            match shell.answerLine line with
            | (shell, .error error) => (shell, .error error)
            | (shell, .ok ()) => runLines shell rest

/-- Run the shell on some input.  What it has shown is passed on at the end. -/
def run (shell : Shell) (input : Bytes) : Shell × Except ShellError Unit :=
  match shell.print [.write (banner ++ "\n")] with
  | (shell, .error error) => (shell, .error error)
  | (shell, .ok ()) =>
      match shell.runLines (splitLines input) with
      | (shell, .error error) => (shell, .error error)
      | (shell, .ok ()) => shell.print [.flush]

end Shell

end Horn
