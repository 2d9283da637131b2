import FlatArchive.IoError.Kind

/-!
# Refusals of the file system

The few reasons for which a file system turns down a request here, with the
number and the words in which the system reports each.  All but the last come
from the system; a path with a NUL byte is refused before it is asked.
-/

namespace FlatArchive

/-- Why the file system refuses a request. -/
inductive FileError
  | notFound
  | alreadyExists
  | notADirectory
  | isADirectory
  | nameTooLong
  | tooManyLinks
  | nulInPath
  deriving DecidableEq, Repr

namespace FileError

/-- The coarse cause. -/
def kind : FileError → IoErrorKind
  | .notFound => .notFound
  | .alreadyExists => .alreadyExists
  | .notADirectory => .notADirectory
  | .isADirectory => .isADirectory
  | .nameTooLong => .invalidFilename
  | .tooManyLinks => .filesystemLoop
  | .nulInPath => .invalidInput

/-- The words of the report. -/
def message : FileError → String
  | .notFound => "No such file or directory (os error 2)"
  | .alreadyExists => "File exists (os error 17)"
  | .notADirectory => "Not a directory (os error 20)"
  | .isADirectory => "Is a directory (os error 21)"
  | .nameTooLong => "File name too long (os error 36)"
  | .tooManyLinks => "Too many levels of symbolic links (os error 40)"
  | .nulInPath => "file name contained an unexpected NUL byte"

end FileError

end FlatArchive
