import FlatArchive.Bytes.Hexadecimal
import FlatArchive.IoError.Kind
import FlatArchive.Text.Utf8

/-!
# What can be wrong with an archive

Reading stops at the first defect; there is no partly valid archive.  Each
constructor is a cause and carries what was found, so that a report names the
entry and the numbers at fault.  `kind` sorts the causes by which promise of the
format was broken, and `message` gives the words of the report.
-/

namespace FlatArchive

/-- Why bytes are not an archive. -/
inductive ArchiveError
  /-- The first eight bytes are not the mark of the format. -/
  | invalidMagic (magic : Bytes)
  /-- The buffer ends before the header or the index table does. -/
  | truncated (needed available : Nat)
  /-- The header counts fewer than no entries. -/
  | negativeIndexCount (count : Int)
  /-- The header declares a size that is negative or more than there is. -/
  | sizeMismatch (declared : Int) (available : Nat)
  /-- The fields of an entry describe no block inside the buffer. -/
  | entryOutOfBounds (index : Nat) (offset length pathLength : Int)
  /-- The block of an entry does not have the digest that the entry stores. -/
  | checksumMismatch (index : Nat) (stored computed : UInt64)
  /-- The stored path of an entry is not text. -/
  | invalidPath (index : Nat) (cause : Utf8Error)
  /-- The medium failed, and said so in its own words. -/
  | io (kind : IoErrorKind) (text : String)
  deriving DecidableEq, Repr

namespace ArchiveError

/-- Which promise was broken. -/
inductive Kind
  | format
  | integrity
  | encoding
  | io
  deriving DecidableEq, Repr

/-- Sorts the causes. -/
def kind : ArchiveError → Kind
  | .invalidMagic _ | .truncated _ _ | .negativeIndexCount _ | .sizeMismatch _ _
  | .entryOutOfBounds _ _ _ _ => .format
  | .checksumMismatch _ _ _ => .integrity
  | .invalidPath _ _ => .encoding
  | .io _ _ => .io

/-- Bytes in a report: two digits each, between brackets. -/
def showBytes (bytes : Bytes) : String :=
  "[" ++ ", ".intercalate (bytes.map Hexadecimal.ofByte) ++ "]"

/-- The words of the report. -/
def message : ArchiveError → String
  | .invalidMagic magic => s!"not a recognized archive: bad magic {showBytes magic}"
  | .truncated needed available =>
    s!"archive truncated: need {needed} bytes, have {available}"
  | .negativeIndexCount count =>
    s!"archive header declares a negative index count ({count})"
  | .sizeMismatch declared available =>
    s!"archive header declares {declared} bytes but {available} are available"
  | .entryOutOfBounds index offset length pathLength =>
    s!"index entry {index} points outside the archive (offset {offset}, "
      ++ s!"length {length}, path length {pathLength})"
  | .checksumMismatch index stored computed =>
    s!"checksum mismatch in entry {index}: stored {Hexadecimal.fixed 16 stored.toNat}, "
      ++ s!"computed {Hexadecimal.fixed 16 computed.toNat}"
  | .invalidPath index cause =>
    s!"path of entry {index} is not valid UTF-8: {cause.message}"
  | .io _ text => s!"IO error: {text}"

/-- The words of the error that lies beneath this one, if there is one. -/
def source? : ArchiveError → Option String
  | .invalidPath _ cause => some cause.message
  | .io _ text => some text
  | _ => none

end ArchiveError

end FlatArchive
