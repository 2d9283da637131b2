import FlatArchive.Bytes.Basic
import FlatArchive.Text.Utf8

/-!
# File records

A file as it travels between a directory tree and an archive.  The path is
relative and separated by slashes; an archive stores it behind one more slash,
whether or not it already starts with one, so that taking one slash away gives
back the path.
-/

namespace FlatArchive

/-- A path, the content found there, and the size that is claimed for it. -/
@[ext] structure FileRecord where
  path : String
  size : UInt64
  data : Bytes
  deriving DecidableEq, Repr

namespace FileRecord

/-- The record of a file: its size is that of its content. -/
def ofFile (path : String) (data : Bytes) : FileRecord where
  path := path
  size := UInt64.ofNat data.length
  data := data

/-- The path as an archive stores it. -/
def storedPath (record : FileRecord) : String :=
  "/" ++ record.path

/-- The bytes of the stored path. -/
def storedPathBytes (record : FileRecord) : Bytes :=
  Utf8.encode record.storedPath

/-- What an archive holds for a record: the stored path, then the content. -/
def block (record : FileRecord) : Bytes :=
  record.storedPathBytes ++ record.data

end FileRecord

end FlatArchive
