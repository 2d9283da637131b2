import FlatArchive.CommandLine.Run

/-!
# The program

Commands work on the tree below the working directory.  The program reads that
tree, runs the command on it, and writes back what is new or different; all
decisions are made in between.
-/

namespace FlatArchive

/-- Reads what a directory entry stands for.  A link is read as a path from the
top of the tree to where it leads, or as a link to nothing if that is outside. -/
partial def loadEntry (top : String) (entry : IO.FS.DirEntry) : IO (Option (Name × Node)) := do
  let name := Utf8.encode entry.fileName
  match (← entry.path.symlinkMetadata).type with
  | .dir =>
    let inner ← (← entry.path.readDir).toList.filterMapM (loadEntry top)
    return some (name, .dir inner)
  | .file =>
    let data ← IO.FS.readBinFile entry.path
    return some (name, .file data.toList)
  | .symlink =>
    let target ← try pure (← IO.FS.realPath entry.path).toString catch _ => pure ""
    if target.startsWith (top ++ "/") then
      return some (name, .link (Utf8.encode (target.drop top.length).copy))
    else return some (name, .link (if target = top then [slash] else []))
  | .other => return none

/-- Reads the tree below the working directory. -/
def loadFiles : IO FileSystem := do
  let top ← IO.FS.realPath (← IO.currentDir)
  return ⟨← (← top.readDir).toList.filterMapM (loadEntry top.toString)⟩

/-- Writes back what is new or different. -/
def storeFiles (before after : FileSystem) : IO Unit := do
  for (place, node) in after.entries.inOrder.listing [] do
    let path := Utf8.lossy (PathText.join place)
    match before.node? place, node with
    | none, .dir _ => IO.FS.createDir path
    | some (.file old), .file new =>
      if old ≠ new then IO.FS.writeBinFile path ⟨new.toArray⟩
    | none, .file new => IO.FS.writeBinFile path ⟨new.toArray⟩
    | _, _ => pure ()

end FlatArchive

open FlatArchive

/-- Runs the words of the command line in the working directory. -/
def main (words : List String) : IO UInt32 := do
  let files ← loadFiles
  let result := CommandLine.run files (words.map Utf8.encode)
  storeFiles files result.files
  IO.eprint result.stderr
  IO.print result.stdout
  return UInt32.ofNat result.code
