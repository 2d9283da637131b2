import FlatArchive.Transfer.TreeWalk

/-!
# Collecting a directory

Every regular file that a walk comes to becomes a record.  Paths of records are seen
from the root of the walk.  All else is passed over: directories, and links unless
the walk follows them.

Where the walk goes, and in which order, is said by `walkTree`; what is done with
what it comes to is said here.  What was taken up before an error is part of the
result (`Findings`): the log tells of it.
-/

namespace FlatArchive

namespace Findings

/-- The records, if the walk came to its end. -/
def toExcept (findings : Findings) : Except IoError (List FileRecord) :=
  match findings.failure with
  | some e => .error e
  | none => .ok findings.records

/-- A line for each file that was taken up. -/
def log (findings : Findings) : List Log.Line :=
  findings.records.map fun record =>
    Log.transferred s!"collected {record.path} ({record.data.length} bytes)"

end Findings

namespace FileSystem

/-- The text of the names that lead to a file. -/
def relativePath (names : List Name) : Except IoError String :=
  match names.mapM fun name => (Utf8.decode name).toOption with
  | some texts => .ok ("/".intercalate texts)
  | none => .error (.pathNotText (PathText.join names))

/-- Takes up the file at `path`, which `names` lead to from the root. -/
def takeUp (files : FileSystem) (path : PathText) (names : List Name) : Findings :=
  match relativePath names with
  | .error e => .failed e
  | .ok text =>
    match files.read path with
    | .error e => .failed (.file e)
    | .ok data => { records := [FileRecord.ofFile text data] }

/-- What becomes of something that a walk comes to. -/
def gather (files : FileSystem) (met : Encounter) : Findings :=
  if met.isFile then files.takeUp met.path met.names else .empty

@[simp] theorem gather_file (files : FileSystem) (path : PathText) (names : List Name) :
    files.gather ⟨path, names, true⟩ = files.takeUp path names := rfl

@[simp] theorem gather_other (files : FileSystem) (path : PathText) (names : List Name) :
    files.gather ⟨path, names, false⟩ = .empty := rfl

/-- Takes up the files of the directory at `root`.  A root that is a file is its
own record, with an empty path. -/
def collect (files : FileSystem) (follow : Bool) (root : PathText) : Findings :=
  files.walkTree follow files.gather root

end FileSystem

end FlatArchive
