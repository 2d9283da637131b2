import FlatArchive.FileSystem.Operations
import FlatArchive.IoError.Basic
import FlatArchive.Log

/-!
# What a transfer leaves behind

A transfer works on a tree of files and may stop half way, so its result alone
does not say what happened.  An outcome has all three parts: the tree as it is
left, the lines that were logged on the way, and the result.
-/

namespace FlatArchive

/-- The end of a transfer. -/
structure Outcome (α : Type) where
  /-- The tree as it is left. -/
  files : FileSystem
  /-- What was logged. -/
  log : List Log.Line
  /-- What came of it. -/
  result : Except IoError α

namespace Log

/-- A detail of a transfer. -/
def transferred (message : String) : Line :=
  { level := .debug, origin := .transfer, message := message }

/-- The summary of a transfer. -/
def summary (message : String) : Line :=
  { level := .info, origin := .transfer, message := message }

end Log

end FlatArchive
