/-
The program's command line: a shell over some files, and a compiler of program
text.
-/
import Horn.Shell
import Horn.Surroundings

namespace Horn

structure Exit where
  code : Nat
  output : String
  errors : String
  files : Files

namespace CommandLine

def usage : String :=
  "usage: sldlog [--log-level <filter>] [shell [files...] | compile <input> [-o <output>]]"

/-- Take the first option of some names, with its value, out of the arguments. -/
def takeOption (names : List String) : List String → Option String × List String
  | [] => (none, [])
  | arg :: rest =>
      if names.contains arg then (rest.head?, rest.drop 1)
      else
        let (value, others) := takeOption names rest
        (value, arg :: others)

def leaveInput (shell : Shell) (input : Bytes) : Shell :=
  { shell with session.engine.env.files.input := ⟨input.toArray⟩ }

/-- Load files in order, up to the first error, and then answer the input.  One
that is the standard input takes all of it, and so does the shell. -/
def loadAndRun (shell : Shell) (input : Bytes) : List String → Shell × Except ShellError Unit
  | [] => (leaveInput shell []).run input
  | path :: rest =>
      let waiting := leaveInput shell input
      match waiting.load path with
      | (shell, .error error) => (shell, .error error)
      | (shell, .ok ()) =>
          let taken := waiting.session.engine.env.files.readsInput path
          loadAndRun shell (if taken then [] else input) rest

def failure (output : String) (files : Files) (message : String) : Exit :=
  ⟨1, output, "Error: " ++ message ++ "\n", files⟩

/-- A shell over some files. -/
def runShell (paths : List String) (input : Bytes) (files : Files) : Exit :=
  let fresh := Shell.ofSession (Session.fresh none (Sink.fresh none) files)
  let (shell, result) := loadAndRun fresh input paths
  let output := shell.session.engine.env.sink.written
  match result with
  | .ok () => ⟨0, output, "", files⟩
  | .error error => failure output files error.message

/-- The number of bytes that are collected before any is passed on. -/
def bufferSize : Nat := 8192

/-- Write a compiled program.  A full device is noticed while the program is
encoded if the buffer cannot hold all of it, and else when it is emptied. -/
def deliver (files : Files) (text : String) : Target → Exit
  | .file location => ⟨0, "", "", files.put location text.toUTF8⟩
  | .device .output => ⟨0, text, "", files⟩
  | .device .errors => ⟨0, "", text, files⟩
  | .device .null | .device .endless | .device .input => ⟨0, "", "", files⟩
  | .device .full =>
      if text = "" then ⟨0, "", "", files⟩
      else if bufferSize < text.utf8ByteSize then
        failure "" files (LoadError.content (.json .unreadable)).message
      else failure "" files (LoadError.system .noSpace).message

/-- Compile program text.  The output is written only after the whole text has
been read. -/
def runCompile (args : List String) (input : Bytes) (files : Files) : Exit :=
  let (output, rest) := takeOption ["-o", "--outfile"] args
  let output := output.getD "out.P"
  match rest with
  | [] => failure "" files ("compile needs an input file\n" ++ usage)
  | path :: _ =>
      match { files with input := ⟨input.toArray⟩ : Files }.readText path with
      | .error cause => failure "" files ("cannot read " ++ path ++ ": " ++ cause.message)
      | .ok text =>
          match parseProgram text with
          | .error error => failure "" files error.message
          | .ok statements =>
              match files.target output with
              | .error cause =>
                  failure "" files ("cannot create " ++ output ++ ": " ++ cause.message)
              | .ok target => deliver files (Compiled.encode statements) target

inductive Plan
  | shell (paths : List String)
  | compile (args : List String)
  | help
  | unknown (command : String)
deriving Repr, DecidableEq

/-- Without a command there is a shell.  The level of the log has no influence
on what the program does. -/
def plan (args : List String) : Plan :=
  match (takeOption ["--log-level", "-l"] args).2 with
  | [] => .shell []
  | command :: rest =>
      if command = "shell" ∨ command = "s" then .shell rest
      else if command = "compile" ∨ command = "c" then .compile rest
      else if command = "-h" ∨ command = "--help" ∨ command = "help" then .help
      else .unknown command

def run (args : List String) (input : Bytes) (files : Files) : Exit :=
  match plan args with
  | .shell paths => runShell paths input files
  | .compile rest => runCompile rest input files
  | .help => ⟨0, usage ++ "\n", "", files⟩
  | .unknown command => failure "" files ("unknown command: " ++ command ++ "\n" ++ usage)

end CommandLine

example : (CommandLine.run [] "f(a).\n?- f(X).\n;\n".toUTF8.toList (.ofList [])).output =
    banner ++ "\n?- ?- X = a\n?- No.\n?- " := by decide +kernel

end Horn
