/-
Errors of what lies outside the program: its files, its input and its output.
-/

namespace Horn

/-- Why reading or writing outside the program fails.  Errors that are not made out
here are known by their text. -/
inductive SystemError
  | notFound
  | denied
  | faulty
  | isDirectory
  | notDirectory
  | nameTooLong
  | noSpace
  | badPath
  | notText
  | closed
  | other (text : String)
deriving Repr, DecidableEq

def SystemError.message : SystemError → String
  | .notFound => "No such file or directory (os error 2)"
  | .denied => "Permission denied (os error 13)"
  | .faulty => "Input/output error (os error 5)"
  | .isDirectory => "Is a directory (os error 21)"
  | .notDirectory => "Not a directory (os error 20)"
  | .nameTooLong => "File name too long (os error 36)"
  | .noSpace => "No space left on device (os error 28)"
  | .badPath => "file name contained an unexpected NUL byte"
  | .notText => "stream did not contain valid UTF-8"
  | .closed => "sink closed"
  | .other text => text

end Horn
