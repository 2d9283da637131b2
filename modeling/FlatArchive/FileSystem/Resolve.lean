import FlatArchive.FileSystem.FileError
import FlatArchive.FileSystem.Node

/-!
# Finding what a path means

A path is walked piece by piece from the top.  Links in the middle are always
followed; the last piece is treated as the request needs it (`Mode`).  The walk
ends at something that is there (`Target.found`), at a name that a directory
does not have but could be given (`Target.vacant`), or in a refusal.

One path leads over at most `linkLimit` links, which is what makes the walk end
on links that lead in a circle: the measure is the number of links left, and
between two links the number of pieces left.

The rules are those that POSIX documents for the resolution of pathnames.  Permissions
have no part in them.
-/

namespace FlatArchive

/-- What the last piece of a path is wanted for. -/
inductive Mode
  /-- To see what is there; a link is followed. -/
  | follow
  /-- To see what is there; a link is what is seen, unless a slash follows it. -/
  | keep
  /-- To write a file there; a link is followed, and there may be nothing. -/
  | create
  deriving DecidableEq, Repr

/-- Where a walk ends. -/
inductive Target
  /-- At a node. -/
  | found (place : Place)
  /-- In the directory at `parent`, which has no such name. -/
  | vacant (parent : Place) (name : Name)
  deriving DecidableEq, Repr

/-- The most links that one path leads over. -/
def linkLimit : Nat := 40

/-- The most bytes in a path. -/
def pathLimit : Nat := 4095

/-- The most bytes in a name. -/
def nameLimit : Nat := 255

/-- The way from the top to a directory, the last step first: each name with the
entries of the directory that it leads to. -/
abbrev Trail := List (Name × Entries)

namespace Trail

/-- The place at the end of a trail. -/
def place (trail : Trail) : Place :=
  (trail.map Prod.fst).reverse

/-- The entries of the directory at the end of a trail. -/
def here (files : FileSystem) : Trail → Entries
  | [] => files.entries
  | (_, entries) :: _ => entries

end Trail

namespace FileSystem

/-- Walks through `pieces` from the end of a trail, with `links` links to go.
`slashed` says that a slash follows the last piece, so that it has to be a
directory.  Above the top there is the top. -/
def walk (files : FileSystem) (mode : Mode) (links : Nat) (slashed : Bool)
    (trail : Trail) (pieces : List Name) : Except FileError Target :=
  match pieces with
  | [] => .ok (.found trail.place)
  | piece :: rest =>
    if piece = dot then files.walk mode links slashed trail rest
    else if piece = dotDot then files.walk mode links slashed trail.tail rest
    else if rest = [] ∧ slashed ∧ mode = .create then .error .isADirectory
    else if nameLimit < piece.length then .error .nameTooLong
    else match (trail.here files).lookup piece with
      | none => if rest = [] then .ok (.vacant trail.place piece) else .error .notFound
      | some (.dir entries) =>
        files.walk mode links slashed ((piece, entries) :: trail) rest
      | some (.file _) =>
        if rest = [] ∧ ¬slashed then .ok (.found (trail.place ++ [piece]))
        else .error .notADirectory
      | some (.link target) =>
        if rest = [] ∧ ¬slashed ∧ mode = .keep then
          .ok (.found (trail.place ++ [piece]))
        else match links with
          | 0 => .error .tooManyLinks
          | links + 1 =>
            if target = [] then .error .notFound
            else files.walk mode links (slashed || (rest.isEmpty && target.endsInSlash))
              (if target.isRooted then [] else trail) (target.pieces ++ rest)
termination_by (links, pieces.length)

/-- What every path is refused for, whatever it is wanted for. -/
def checkPath (path : PathText) : Except FileError Unit :=
  if 0 ∈ path then .error .nulInPath
  else if path = [] then .error .notFound
  else if pathLimit < path.length then .error .nameTooLong
  else .ok ()

/-- Where a path leads. -/
def resolve (files : FileSystem) (mode : Mode) (path : PathText) :
    Except FileError Target :=
  match checkPath path with
  | .error e => .error e
  | .ok () => files.walk mode linkLimit path.endsInSlash [] path.pieces

/-- Where a path leads as the name of something new: a slash behind it says
nothing, and a link there is in the way. -/
def resolveNew (files : FileSystem) (path : PathText) : Except FileError Target :=
  match checkPath path with
  | .error e => .error e
  | .ok () => files.walk .keep linkLimit false [] path.pieces

/-- Something that is there: where it is, and what it is. -/
structure Found (files : FileSystem) where
  place : Place
  node : Node
  node?_place : files.node? place = some node

/-- What a path leads to. -/
def look (files : FileSystem) (mode : Mode) (path : PathText) :
    Except FileError files.Found :=
  match files.resolve mode path with
  | .error e => .error e
  | .ok (.vacant _ _) => .error .notFound
  | .ok (.found place) =>
    match (files.node? place).attach with
    | none => .error .notFound
    | some ⟨node, h⟩ => .ok ⟨place, node, h⟩

/-- What is at the end of a path, links followed. -/
def stat (files : FileSystem) (path : PathText) : Except FileError files.Found :=
  files.look .follow path

/-- What is at the end of a path, which may be a link. -/
def lstat (files : FileSystem) (path : PathText) : Except FileError files.Found :=
  files.look .keep path

end FileSystem

end FlatArchive
