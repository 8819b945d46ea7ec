/-
Places in a tree of directories: how paths name them, and what a system has at
them besides the files that a program is given.
-/
import Horn.SystemError

namespace Horn

/-- Where a file or directory is: the names on the way to it from the working
directory, after one `..` for each directory further up; or, if the first part
is empty, from the root. -/
abbrev Location := List String

/-- Put a character in front of the parts after it; a slash opens a new part. -/
def addToParts (c : Char) (parts : List (List Char)) : List (List Char) :=
  if c = '/' then [] :: parts
  else match parts with
    | [] => [[c]]
    | part :: rest => (c :: part) :: rest

def pathParts (path : String) : List String :=
  (path.toList.foldr addToParts [[]]).map String.ofList

def Location.root : Location := [""]

def Location.start (path : String) : Location :=
  if path.toList.head? = some '/' then .root else []

/-- Places that take or give bytes without keeping them.  One that is endless or
full gives bytes without an end, and one that is full takes none. -/
inductive Device
  | null
  | endless
  | full
  | input
  | output
  | errors
deriving Repr, DecidableEq

/-- What is done with a place.  Directories are entered on the way to others, and
new files are added to them. -/
inductive Access
  | entering
  | reading
  | writing
  | adding
deriving Repr, DecidableEq

/-- What there is besides the files of a program: directories and devices, other
names of places, files that were there before, and places that cannot be used. -/
structure System where
  /-- The number of steps up from the working directory that lead to the root. -/
  depth : Nat
  directories : List Location
  devices : List (Location × Device)
  links : List (Location × Location)
  files : List (Location × ByteArray)
  /-- The bytes of a device, as far as they are looked at. -/
  gives : Device → ByteArray
  denies : Access → Location → Option SystemError
  /-- The number of bytes after which reading a place fails. -/
  breaks : Location → Option (Nat × SystemError)

namespace System

def bare : System where
  depth := 1
  directories := []
  devices := []
  links := []
  files := []
  gives _ := ByteArray.empty
  denies _ _ := none
  breaks _ := none

/-- The directory around a location.  The root is its own. -/
def parent (system : System) (location : Location) : Location :=
  if location = .root then .root
  else if location.all (· = "..") then
    if location.length + 1 < system.depth then location ++ [".."] else .root
  else location.dropLast

def follow (system : System) (location : Location) : Location :=
  (system.links.lookup location).getD location

end System

example : System.bare.parent ["a", "b"] = ["a"] ∧ System.bare.parent [] = .root ∧
    { System.bare with depth := 3 }.parent [".."] = ["..", ".."] := by decide

end Horn
