import FlatArchive.Bytes.Basic

/-!
# Paths as they are written

A path is written as bytes with slashes between names.  Three readings of such
a text are needed, and each is a list of names:

* `pieces` is what a file system walks through: everything between slashes, the
  empty pieces left out;
* `components` is how a path is taken apart into the directories above it
  (`ancestors`): a dot counts only in front, and `reading` says what each of them
  stands for;
* `push` and `extend` go the other way and put names behind a path.

Nothing here looks at a file system; what a dot or two dots lead to is decided
where the path is walked.
-/

namespace FlatArchive

/-- The name of something in a directory. -/
abbrev Name := Bytes

/-- A path as it is written. -/
abbrev PathText := Bytes

/-- The byte between the names of a path. -/
def slash : UInt8 := 0x2F

/-- The name that a directory has for itself. -/
def dot : Name := [0x2E]

/-- The name that a directory has for the one above it. -/
def dotDot : Name := [0x2E, 0x2E]

/-- What can stand at one place of a path that is taken apart. -/
inductive Component
  /-- The top, for a path that starts there. -/
  | root
  /-- The same directory. -/
  | here
  /-- The directory above. -/
  | above
  /-- Something in the directory. -/
  | name (name : Name)
  deriving DecidableEq, Repr

/-- What a name stands for. -/
def Component.ofName (name : Name) : Component :=
  if name = dot then .here else if name = dotDot then .above else .name name

namespace PathText

/-- The bytes between slashes, as far as there are any. -/
def pieces (text : PathText) : List Name :=
  (text.splitOn slash).filter (· ≠ [])

/-- Whether a path starts at the top. -/
def isRooted (text : PathText) : Bool :=
  text.head? = some slash

/-- Whether a path ends in a slash, and so can only mean a directory. -/
def endsInSlash (text : PathText) : Bool :=
  text.getLast? = some slash

/-- The names that count when a path is taken apart. -/
def components (text : PathText) : List Name :=
  match pieces text with
  | [] => []
  | first :: rest =>
    let rest := rest.filter (· ≠ dot)
    if isRooted text ∧ first = dot then rest else first :: rest

/-- What a path says when it is taken apart, from the front. -/
def reading (text : PathText) : List Component :=
  let parts := (components text).map Component.ofName
  if isRooted text then .root :: parts else parts

/-- Names with slashes between them. -/
def join (names : List Name) : PathText :=
  [slash].intercalate names

/-- The path of components, from the top or from the working directory. -/
def ofComponents (rooted : Bool) (names : List Name) : PathText :=
  if rooted then slash :: join names else join names

/-- The paths of the directories above, the nearest first. -/
def ancestors (text : PathText) : List PathText :=
  let names := components text
  let above := (List.range names.length).map fun n =>
    ofComponents (isRooted text) (names.take n)
  above.reverse.filter (· ≠ [])

/-- A path with a name behind it. -/
def push (text : PathText) (name : Name) : PathText :=
  if text = [] ∨ endsInSlash text then text ++ name else text ++ slash :: name

/-- A path with names behind it. -/
def extend (text : PathText) (names : List Name) : PathText :=
  names.foldl push text

@[simp] theorem extend_nil (text : PathText) : extend text [] = text := rfl

@[simp] theorem extend_cons (text : PathText) (name : Name) (names : List Name) :
    extend text (name :: names) = extend (push text name) names := rfl

theorem extend_append (text : PathText) (front back : List Name) :
    extend text (front ++ back) = extend (extend text front) back :=
  List.foldl_append

end PathText

end FlatArchive
