import FlatArchive.FileRecord
import FlatArchive.Transfer.Outcome

/-!
# Extracting records

Every record is written to a file below one directory, the destination, whatever
its path says.  The path is read from the front.  The top and dots say nothing and
are left out, so an absolute path ends up below the destination too; two dots
anywhere in it are refused, and so is a path of which nothing is left.
`targetNames` is that rule, and it looks at no file.

Records are written in order, and the first error ends the extraction.  What was
written before stays.
-/

namespace FlatArchive

/-- Takes the names out of a path that is read from the front, and puts them behind those
that it had already.  The first two dots end that, whatever came before them. -/
def takeNames (path : String) (names : List Name) : List Component → Except IoError (List Name)
  | [] => if names = [] then .error (.pathEmpty path) else .ok names
  | .root :: rest => takeNames path names rest
  | .here :: rest => takeNames path names rest
  | .above :: _ => .error (.pathEscapes path)
  | .name name :: rest => takeNames path (names ++ [name]) rest

/-- The names below the destination that the path of a record means. -/
def targetNames (path : String) : Except IoError (List Name) :=
  takeNames path [] (PathText.reading (Utf8.encode path))

/-- The path to which a record with a given path is written. -/
def resolveTarget (destination : PathText) (path : String) : Except IoError PathText :=
  (targetNames path).map destination.extend

namespace FileSystem

/-- Writes one file below the destination, with the directories that its path needs. -/
def extractFile (files : FileSystem) (destination : PathText) (path : String)
    (data : Bytes) : Outcome Unit :=
  match targetNames path with
  | .error e => ⟨files, [], .error e⟩
  | .ok names =>
    match files.createDirAll (destination.extend names.dropLast) with
    | (files, .error e) => ⟨files, [], .error (.file e)⟩
    | (files, .ok ()) =>
      let target := destination.extend names
      match files.writeFile target data with
      | .error e => ⟨files, [], .error (.file e)⟩
      | .ok files => ⟨files, [Log.transferred s!"extracted {Utf8.lossy target}"], .ok ()⟩

/-- Writes files one after the other, up to the first error.  What is written may
come as records or as entries of an archive: `path` and `data` say where its parts are. -/
def extractEach {α : Type} (files : FileSystem) (destination : PathText)
    (path : α → String) (data : α → Bytes) : List α → Outcome Unit
  | [] => ⟨files, [], .ok ()⟩
  | item :: rest =>
    match files.extractFile destination (path item) (data item) with
    | ⟨files, log, .error e⟩ => ⟨files, log, .error e⟩
    | ⟨files, log, .ok ()⟩ =>
      let after := files.extractEach destination path data rest
      { after with log := log ++ after.log }

/-- Makes the destination and writes records below it. -/
def extractAll (files : FileSystem) (destination : PathText) (records : List FileRecord) :
    Outcome Unit :=
  match files.createDirAll destination with
  | (files, .error e) => ⟨files, [], .error (.file e)⟩
  | (files, .ok ()) =>
    files.extractEach destination FileRecord.path FileRecord.data records

end FileSystem

end FlatArchive
