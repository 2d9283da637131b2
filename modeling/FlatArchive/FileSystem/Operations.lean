import FlatArchive.FileSystem.Resolve

/-!
# Reading and changing files

The requests that transfers make of a file system, each as a function from a
tree to an answer or to a new tree.  A request that is refused changes nothing;
only `createDirAll`, which makes several requests in a row, can leave something
behind when it fails, and so it gives the tree beside the answer.
-/

namespace FlatArchive.FileSystem

/-- Whether a path leads to a directory. -/
def isDir (files : FileSystem) (path : PathText) : Bool :=
  match files.stat path with
  | .ok ⟨_, .dir _, _⟩ => true
  | _ => false

/-- The content of a file. -/
def read (files : FileSystem) (path : PathText) : Except FileError Bytes :=
  match files.stat path with
  | .error e => .error e
  | .ok ⟨_, .file data, _⟩ => .ok data
  | .ok _ => .error .isADirectory

/-- The entries of a directory. -/
def readDir (files : FileSystem) (path : PathText) : Except FileError Entries :=
  match files.stat path with
  | .error e => .error e
  | .ok ⟨_, .dir entries, _⟩ => .ok entries
  | .ok _ => .error .notADirectory

/-- Makes `data` the content of a file, which is created if it is not there. -/
def writeFile (files : FileSystem) (path : PathText) (data : Bytes) :
    Except FileError FileSystem :=
  match files.resolve .create path with
  | .error e => .error e
  | .ok (.vacant parent name) => .ok (files.put (parent ++ [name]) (.file data))
  | .ok (.found place) =>
    match files.node? place with
    | some (.file _) => .ok (files.put place (.file data))
    | _ => .error .isADirectory

/-- Makes an empty directory. -/
def createDir (files : FileSystem) (path : PathText) : Except FileError FileSystem :=
  match files.resolveNew path with
  | .error e => .error e
  | .ok (.found _) => .error .alreadyExists
  | .ok (.vacant parent name) => .ok (files.put (parent ++ [name]) (.dir []))

/-- Makes the first of some directories; each is above the one before it, and is
made first if the one before it cannot do without. -/
def createChain (files : FileSystem) : List PathText → FileSystem × Except FileError Unit
  | [] => (files, .ok ())
  | path :: above =>
    match files.createDir path with
    | .ok files => (files, .ok ())
    | .error .notFound =>
      match files.createChain above with
      | (files, .error e) => (files, .error e)
      | (files, .ok ()) =>
        match files.createDir path with
        | .ok files => (files, .ok ())
        | .error e => (files, if files.isDir path then .ok () else .error e)
    | .error e => (files, if files.isDir path then .ok () else .error e)

/-- Sees to it that a path leads to a directory. -/
def createDirAll (files : FileSystem) (path : PathText) :
    FileSystem × Except FileError Unit :=
  if path = [] then (files, .ok ())
  else files.createChain (path :: path.ancestors)

/-- Makes a link that says `target`, whether anything is there or not. -/
def createLink (files : FileSystem) (path target : PathText) : Except FileError FileSystem :=
  match checkPath target, files.resolveNew path with
  | .error e, _ => .error e
  | _, .error e => .error e
  | _, .ok (.found _) => .error .alreadyExists
  | _, .ok (.vacant parent name) =>
    if path.endsInSlash then .error .notFound
    else .ok (files.put (parent ++ [name]) (.link target))

/-- Takes a file or a link away. -/
def removeFile (files : FileSystem) (path : PathText) : Except FileError FileSystem :=
  match files.lstat path with
  | .error e => .error e
  | .ok ⟨_, .dir _, _⟩ => .error .isADirectory
  | .ok ⟨place, _, _⟩ => .ok (files.remove place)

/-- Everything below a directory, with the names that lead to it from there. -/
def tree (files : FileSystem) (path : PathText) : Except FileError (List (Place × Node)) :=
  match files.readDir path with
  | .error e => .error e
  | .ok entries => .ok (entries.inOrder.listing [])

end FlatArchive.FileSystem
