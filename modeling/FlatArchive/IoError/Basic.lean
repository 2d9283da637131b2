import FlatArchive.FileSystem.FileError
import FlatArchive.Format.ArchiveError

/-!
# Input and output errors

What can stop a transfer between a tree of files and an archive.  A cause says
what happened and where; `kind` and `message` are derived from it.  An error in
an archive's own bytes becomes one of these when the archive came from a file
(`ofArchive`).
-/

namespace FlatArchive

/-- Why a transfer stopped. -/
inductive IoError
  /-- The file system refused a request. -/
  | file (cause : FileError)
  /-- The file system refused to show what is at `path` during a walk. -/
  | walk (path : Bytes) (cause : FileError)
  /-- A link on a walk leads back to a directory that the walk is in. -/
  | linkCycle (link ancestor : Bytes)
  /-- The path of a file, seen from the root of a walk, is not text. -/
  | pathNotText (path : Bytes)
  /-- A path in an archive leads out of the directory of extraction. -/
  | pathEscapes (path : String)
  /-- A path in an archive names no file. -/
  | pathEmpty (path : String)
  /-- The bytes of a file are not an archive. -/
  | archive (cause : ArchiveError)
  /-- A sink took no more bytes, and gave no reason. -/
  | sinkFull
  /-- The medium failed, and said so in its own words. -/
  | medium (kind : IoErrorKind) (text : String)
  deriving DecidableEq, Repr

namespace IoError

/-- The coarse cause. -/
def kind : IoError → IoErrorKind
  | .file cause | .walk _ cause => cause.kind
  | .linkCycle _ _ => .other
  | .pathNotText _ | .archive _ => .invalidData
  | .pathEscapes _ | .pathEmpty _ => .invalidInput
  | .sinkFull => .writeZero
  | .medium kind _ => kind

/-- The words of the report. -/
def message : IoError → String
  | .file cause => cause.message
  | .walk path cause => s!"IO error for operation on {Utf8.lossy path}: {cause.message}"
  | .linkCycle link ancestor =>
    s!"File system loop found: {Utf8.lossy link} points to an ancestor "
      ++ Utf8.lossy ancestor
  | .pathNotText path => s!"non UTF-8 file name: {Utf8.lossy path}"
  | .pathEscapes path => s!"path escapes extraction directory: {path}"
  | .pathEmpty path => s!"empty file path in archive: \"{path}\""
  | .archive cause => cause.message
  | .sinkFull => "failed to write whole buffer"
  | .medium _ text => text

/-- An archive's defect, as the error of reading it.  A failure of the medium
stays what it was. -/
def ofArchive : ArchiveError → IoError
  | .io kind text => .medium kind text
  | cause => .archive cause

end IoError

end FlatArchive
