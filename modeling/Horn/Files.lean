/-
The files a program can reach: a directory tree given by the locations of its
files, and the errors that stand in the way of a path.
-/
import Horn.Compiled.Stream
import Horn.Location

namespace Horn

inductive LoadError
  | system (error : SystemError)
  | content (error : CompiledError)
deriving Repr, DecidableEq

def LoadError.message : LoadError → String
  | .system error => "i/o error: " ++ error.message
  | .content (.json _) => "malformed json"
  | .content (.node error) => error.message

/-- The files in reach, with their contents, what is left of the standard input,
and the system around them. -/
structure Files where
  entries : List (Location × ByteArray)
  input : ByteArray
  system : System

inductive Place
  | file (contents : ByteArray)
  | device (device : Device)
  | directory

/-- What reading a place gives: bytes, and then its end or an error. -/
structure Contents where
  bytes : ByteArray
  fault : Option SystemError

/-- All statements of a compiled program, or its first error.  They are decoded while
they are read, so that an error in reading takes the place of a missing end. -/
def Contents.decodeAll (contents : Contents) : Except CompiledError (List Statement) :=
  match contents.fault, Compiled.decodeAll contents.bytes.toList with
  | none, decoded => decoded
  | some _, .ok _ => .error (.json .unreadable)
  | some _, .error cause => .error (if cause = .json .truncated then .json .unreadable else cause)

/-- Where the bytes go that are written to a path. -/
inductive Target
  | file (location : Location)
  | device (device : Device)
deriving Repr, DecidableEq

def maxName : Nat := 255

def maxPath : Nat := 4095

def checkPath (path : String) : Except SystemError Unit :=
  if path.toList.contains '\x00' then .error .badPath
  else if path = "" then .error .notFound
  else if maxPath < path.utf8ByteSize then .error .nameTooLong
  else .ok ()

namespace Files

/-- Some files by their paths, and an input that is empty. -/
def ofEntries (system : System) (entries : List (String × ByteArray)) : Files :=
  ⟨entries.map fun entry => (pathParts entry.1, entry.2), ByteArray.empty, system⟩

def empty : Files :=
  ofEntries .bare []

/-- Whether a location is a directory: one on the way up, one of the system's,
or one with a file somewhere below it. -/
def hasDirectory (files : Files) (location : Location) : Bool :=
  location.all (· = "..") || location = Location.root ||
    files.system.directories.contains location ||
    files.entries.any fun entry =>
      location.isPrefixOf entry.1 && location.length < entry.1.length

def place? (files : Files) (location : Location) : Option Place :=
  if files.hasDirectory location then some .directory
  else match files.system.devices.lookup location with
    | some device => some (.device device)
    | none => ((files.entries ++ files.system.files).lookup location).map .file

def permit (files : Files) (access : Access) (location : Location) : Except SystemError Unit :=
  match files.system.denies access location with
  | some error => .error error
  | none => .ok ()

/-- Follow the parts of a path from a location.  Whatever has a part after it has
to be a directory, where `.` and empty parts stay. -/
def walk (files : Files) : Location → List String → Except SystemError Location
  | location, [] => .ok location
  | location, part :: rest =>
      if !files.hasDirectory location then .error .notDirectory
      else if part = "" then walk files location rest
      else do
        files.permit .entering location
        if part = "." then walk files location rest
        else if part = ".." then walk files (files.system.parent location) rest
        else if maxName < part.utf8ByteSize then .error .nameTooLong
        else
          let next := files.system.follow (location ++ [part])
          if (files.place? next).isSome then walk files next rest else .error .notFound

/-- The location that a path leads to, and what stands there. -/
def lookup (files : Files) (path : String) : Except SystemError (Location × Place) := do
  checkPath path
  let location ← files.walk (Location.start path) (pathParts path)
  match files.place? location with
  | some place => .ok (location, place)
  | none => .error .notFound

/-- The bytes at a place, up to where reading it fails. -/
def reach (files : Files) (location : Location) (bytes : ByteArray) : Contents :=
  match files.system.breaks location with
  | some (most, error) => ⟨bytes.extract 0 most, some error⟩
  | none => ⟨bytes, none⟩

/-- What reading a path gives, if it can be opened.  A directory can, but nothing
can be read from it. -/
def contents (files : Files) (path : String) : Except SystemError Contents := do
  let (location, place) ← files.lookup path
  files.permit .reading location
  match place with
  | .file bytes => .ok (files.reach location bytes)
  | .device .input => .ok (files.reach location files.input)
  | .device device => .ok (files.reach location (files.system.gives device))
  | .directory => .ok ⟨ByteArray.empty, some .isDirectory⟩

def read (files : Files) (path : String) : Except SystemError ByteArray := do
  let contents ← files.contents path
  match contents.fault with
  | some error => .error error
  | none => .ok contents.bytes

theorem read_eq_ok_iff {files : Files} {path : String} {bytes : ByteArray} :
    files.read path = .ok bytes ↔ files.contents path = .ok ⟨bytes, none⟩ := by
  rw [read]
  rcases files.contents path with error | ⟨found, _ | fault⟩ <;> simp [bind, Except.bind]

def readsInput (files : Files) (path : String) : Bool :=
  match files.lookup path with
  | .ok (_, .device .input) => true
  | _ => false

/-- The contents of a file, which have to be text. -/
def readText (files : Files) (path : String) : Except SystemError String := do
  let contents ← files.read path
  match String.fromUTF8? contents with
  | some text => .ok text
  | none => .error .notText

def loadCompiled (files : Files) (path : String) : Except LoadError (List Statement) :=
  match files.contents path with
  | .error error => .error (.system error)
  | .ok contents =>
      match contents.decodeAll with
      | .ok statements => .ok statements
      | .error error => .error (.content error)

/-- Put a file in place of the one at a location, or add it. -/
def put (files : Files) (location : Location) (contents : ByteArray) : Files :=
  if files.entries.any fun entry => entry.1 = location then
    { files with
      entries := files.entries.map fun entry =>
        if entry.1 = location then (location, contents) else entry }
  else { files with entries := files.entries ++ [(location, contents)] }

/-- Where writing to a path goes.  Its directory has to be there, and a path
that ends in a slash asks for a directory. -/
def target (files : Files) (path : String) : Except SystemError Target := do
  checkPath path
  match (pathParts path).reverse.dropWhile (· = "") with
  | [] => .error .isDirectory
  | name :: above =>
      let around ← files.walk (Location.start path) above.reverse
      if !files.hasDirectory around then .error .notDirectory
      else do
        files.permit .entering around
        if name = "." ∨ name = ".." ∨ path.toList.getLast? = some '/' then .error .isDirectory
        else if maxName < name.utf8ByteSize then .error .nameTooLong
        else
          let location := files.system.follow (around ++ [name])
          match files.place? location with
          | some .directory => .error .isDirectory
          | some (.device device) => do
              files.permit .writing location
              .ok (.device device)
          | some (.file _) => do
              files.permit .writing location
              .ok (.file location)
          | none => do
              files.permit .adding around
              .ok (.file location)

end Files

/-- A file that may not be read, and one that breaks off behind its first byte. -/
example :
    let system : System := { System.bare with
      denies := fun _ location => if location = ["shut"] then some .denied else none
      breaks := fun location => if location = ["torn"] then some (1, .faulty) else none }
    let files := Files.ofEntries system
      [("a/p", "x".toUTF8), ("shut", "x".toUTF8), ("torn", "[]".toUTF8)]
    (files.readText "./a//p").toOption = some "x" ∧ (files.readText "a/p/..").toBool = false ∧
      (match files.read "shut" with | .error error => some error | .ok _ => none) = some .denied ∧
      (match files.loadCompiled "torn" with | .error error => some error | .ok _ => none) =
        some (.content (.json .unreadable)) := by
  decide +kernel

end Horn
