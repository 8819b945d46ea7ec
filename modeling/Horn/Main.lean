/-
The program.  It sees the files of its working directory and those that its
arguments name as they are when it starts.
-/
import Horn.CommandLine

namespace Horn

def systemError? : IO.Error → Option SystemError
  | .noFileOrDirectory .. | .noSuchThing .. | .inappropriateType .. => none
  | .permissionDenied .. => some .denied
  | .hardwareFault .. => some .faulty
  | error => some (.other error.toString)

/-- The contents of a file, or why it cannot be read. -/
def readIfFile (path : String) : IO (Option (String × Except SystemError ByteArray)) := do
  try
    return some (path, .ok (← IO.FS.readBinFile path))
  catch error => return (systemError? error).map fun error => (path, .error error)

def namesInput (arg : String) : Bool :=
  (Files.ofList []).readsInput arg

/-- Whether an argument names something that can be read to an end before it is
known whether it has to be. -/
def namesFile (arg : String) : Bool :=
  !namesInput arg && !(pathParts "/dev").isPrefixOf (pathParts arg)

/-- The files of the working directory and those named by arguments, and the
standard input if an argument names that. -/
def surroundings (args : List String) : IO Files := do
  let found ← (← IO.currentDir).readDir
  let named := args.filter namesFile
  let paths := (found.toList.map fun entry => entry.fileName) ++ named
  let read ← paths.filterMapM readIfFile
  let entries := read.map fun entry => (entry.1, entry.2.toOption.getD ByteArray.empty)
  let denied := read.filterMap fun entry =>
    match entry.2 with
    | .error error => some (pathParts entry.1, error)
    | .ok _ => none
  let system := { System.installed with denies := fun _ location => denied.lookup location }
  let files := Files.ofEntries system entries
  match args.find? namesInput with
  | some arg => return { files with input := ← IO.FS.readBinFile arg }
  | none => return files

def writeBack (before after : Files) : IO Unit := do
  for entry in after.entries do
    let old := before.entries.lookup entry.1
    if (old.map fun contents => contents.data) ≠ some entry.2.data then
      IO.FS.writeBinFile ("/".intercalate entry.1) entry.2

/-- Show what the shell has written, and forget it. -/
def showWritten (shell : Shell) : IO Shell := do
  let output ← IO.getStdout
  let engine := shell.session.engine
  output.putStr engine.env.sink.written
  output.flush
  let sink := { engine.env.sink with written := "" }
  let session := { shell.session with engine := { engine with env := { engine.env with sink } } }
  return { shell with session }

def complain (error : ShellError) : IO UInt32 := do
  IO.eprintln ("Error: " ++ error.message)
  return 1

/-- Prompt for a line, answer it, and go on, until the input ends or the shell
quits. -/
partial def converse (shell : Shell) : IO UInt32 := do
  if shell.quit then return 0
  let (shell, _) := shell.print [.write prompt, .flush]
  let shell ← showWritten shell
  let line ← try (← IO.getStdin).getLine catch _ => return ← complain (.system .notText)
  if line.isEmpty then return 0
  let (shell, result) := shell.answerLine line.toUTF8.toList
  let shell ← showWritten shell
  match result with
  | .ok () => converse shell
  | .error error => complain error

def start (shell : Shell) : List String → IO UInt32
  | [] => do
      let (shell, _) := shell.print [.write (banner ++ "\n")]
      converse shell
  | path :: rest => do
      let (shell, result) := shell.load path
      let shell ← showWritten shell
      match result with
      | .ok () => start (if namesInput path then CommandLine.leaveInput shell [] else shell) rest
      | .error error => complain error

end Horn

open Horn in
def main (args : List String) : IO UInt32 := do
  let files ← surroundings args
  match CommandLine.plan args with
  | .shell paths => start (.ofSession (.fresh none (.fresh none) files)) paths
  | _ =>
      let exit := CommandLine.run args files.input.toList files
      writeBack files exit.files
      IO.print exit.output
      IO.eprint exit.errors
      return UInt32.ofNat exit.code
