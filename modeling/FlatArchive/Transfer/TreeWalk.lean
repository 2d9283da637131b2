import FlatArchive.FileRecord
import FlatArchive.Transfer.Outcome

/-!
# Walking through a tree

A walk goes through a tree depth first, the names of each directory in order, and
comes to a directory before it comes to what is in there.  It comes to a link as
such, or to what is behind it if it follows links; a root that is a link to a
directory is entered in any case.

A walk that follows links goes where they lead as if the thing were there.  It
stops with an error at a link to a directory that it is already in: such a link
would lead it in a circle.  That is also why a walk ends.  Entering a directory
through a link makes the directories that the walk is *not* in fewer, and
entering one by its name leaves a smaller part of the tree to go through.

`walkTree` takes over what the library `walkdir` documents of a walk that is sorted
by file names: the order, the links, the errors and the paths in them.  What comes
of the things on the way is not its business: `visit` is called with each of them,
and may stop the walk.
-/

namespace FlatArchive

/-- Something that a walk comes to. -/
structure Encounter where
  /-- The path on which the walk came there. -/
  path : PathText
  /-- The names that lead there from the root of the walk. -/
  names : List Name
  /-- Whether it is a regular file. -/
  isFile : Bool
  deriving DecidableEq, Repr

/-- What a walk took up, and what it stopped at. -/
structure Findings where
  records : List FileRecord := []
  failure : Option IoError := none
  deriving DecidableEq, Repr

namespace Findings

/-- Nothing yet. -/
def empty : Findings := {}

/-- A walk that stops. -/
def failed (e : IoError) : Findings :=
  { failure := some e }

/-- Goes on to a next part, unless the walk has stopped. -/
def andThen (first : Findings) (next : Unit → Findings) : Findings :=
  match first.failure with
  | some _ => first
  | none =>
    let rest := next ()
    { records := first.records ++ rest.records, failure := rest.failure }

@[simp] theorem empty_andThen (next : Unit → Findings) : empty.andThen next = next () := rfl

end Findings

/-- A directory that a walk is in: where it is, and the path on which the walk
came there. -/
structure Ancestor where
  place : Place
  path : PathText
  deriving DecidableEq, Repr

namespace FileSystem

/-- Whether a walk is not in the directory at a place. -/
def isOutside (inside : List Ancestor) (place : Place) : Bool :=
  inside.all fun a => a.place ≠ place

/-- How many directories a walk is not in. -/
def directoriesLeft (files : FileSystem) (inside : List Ancestor) : Nat :=
  files.directories.countP (isOutside inside)

theorem mem_directories_of_lookup {entries inner : Entries} {name : Name}
    (above : Place) (h : entries.lookup name = some (.dir inner)) :
    (above ++ [name]) ∈ entries.directories above
      ∧ ∀ place ∈ inner.directories (above ++ [name]),
        place ∈ entries.directories above := by
  induction entries with
  | nil => simp at h
  | cons entry rest ih =>
    obtain ⟨n, x⟩ := entry
    by_cases hn : name = n
    · subst hn
      simp only [List.lookup_cons_self, Option.some.injEq] at h
      subst h
      simp only [Entries.directories]
      exact ⟨by simp, fun place hp => by simp [hp]⟩
    · have hb : (name == n) = false := by simpa using hn
      rw [List.lookup_cons, hb] at h
      obtain ⟨h1, h2⟩ := ih h
      cases x with
      | dir other =>
        simp only [Entries.directories]
        exact ⟨by simp [h1], fun place hp => by simp [h2 place hp]⟩
      | file data => simpa only [Entries.directories] using ⟨h1, h2⟩
      | link target => simpa only [Entries.directories] using ⟨h1, h2⟩

theorem mem_directories_of_descend {entries inner : Entries} {place : Place}
    (above : Place) (hp : place ≠ [])
    (h : (Node.dir entries).descend place = some (.dir inner)) :
    (above ++ place) ∈ entries.directories above := by
  induction place generalizing entries above with
  | nil => exact absurd rfl hp
  | cons name rest ih =>
    rw [Node.descend] at h
    obtain ⟨node, hl, hd⟩ := Option.bind_eq_some_iff.mp h
    cases rest with
    | nil =>
      rw [Node.descend, Option.some.injEq] at hd
      subst hd
      exact (mem_directories_of_lookup above hl).1
    | cons next more =>
      cases node with
      | dir middle =>
        have := ih (above ++ [name]) (by simp) hd
        rw [List.append_assoc, List.singleton_append] at this
        exact (mem_directories_of_lookup above hl).2 _ this
      | file data => simp [Node.descend] at hd
      | link target => simp [Node.descend] at hd

/-- A directory that is there is one of the directories. -/
theorem mem_directories {files : FileSystem} {place : Place} {inner : Entries}
    (h : files.node? place = some (.dir inner)) : place ∈ files.directories := by
  cases place with
  | nil => simp [directories]
  | cons name rest =>
    have := mem_directories_of_descend [] (by simp) h
    simp only [List.nil_append] at this
    simp [directories, this]

theorem isOutside_of_cons {a : Ancestor} {inside : List Ancestor} {place : Place}
    (h : isOutside (a :: inside) place = true) : isOutside inside place = true := by
  simp only [isOutside, List.all_cons, Bool.and_eq_true] at h
  exact h.2

/-- No walk gets out of a directory by entering another one. -/
theorem directoriesLeft_cons_le (files : FileSystem) (a : Ancestor)
    (inside : List Ancestor) :
    files.directoriesLeft (a :: inside) ≤ files.directoriesLeft inside :=
  List.countP_mono_left fun _ _ => isOutside_of_cons

theorem countP_lt_countP {α : Type} {p q : α → Bool} {l : List α} {a : α} (ha : a ∈ l)
    (hq : q a = true) (hp : p a = false) (hpq : ∀ x, p x = true → q x = true) :
    l.countP p < l.countP q := by
  induction l with
  | nil => simp at ha
  | cons b rest ih =>
    rw [List.countP_cons, List.countP_cons]
    have hle : rest.countP p ≤ rest.countP q := List.countP_mono_left fun x _ => hpq x
    by_cases hb : a = b
    · subst hb
      rw [if_neg (by simp [hp]), if_pos hq]
      omega
    · have hlt := ih (by simpa [hb] using ha)
      have hstep : (if p b = true then 1 else 0) ≤ if q b = true then 1 else 0 := by
        split
        · next hpb => exact Nat.le_of_eq (if_pos (hpq b hpb)).symm
        · exact Nat.zero_le _
      omega

/-- Entering a directory for the first time leaves fewer directories. -/
theorem directoriesLeft_cons_lt {files : FileSystem} {a : Ancestor}
    {inside : List Ancestor} {entries : Entries}
    (hn : files.node? a.place = some (.dir entries))
    (ho : isOutside inside a.place = true) :
    files.directoriesLeft (a :: inside) < files.directoriesLeft inside :=
  countP_lt_countP (mem_directories hn) ho (by simp [isOutside])
    fun _ => isOutside_of_cons

/-! ## The walk -/

/-- What a walk finds behind a link. -/
inductive Behind (files : FileSystem) (inside : List Ancestor)
  | file
  /-- A directory that the walk is not in. -/
  | directory (here : Ancestor) (entries : Entries)
      (fewer : files.directoriesLeft (here :: inside) < files.directoriesLeft inside)
  | stop (e : IoError)

/-- The path on which a walk came into the directory at a place. -/
def pathInto (inside : List Ancestor) (place : Place) : PathText :=
  ((inside.find? fun a : Ancestor => a.place = place).map Ancestor.path).getD []

/-- Looks behind the link at `path`. -/
def lookBehind (files : FileSystem) (inside : List Ancestor) (path : PathText) :
    Behind files inside :=
  match files.stat path with
  | .error e => .stop (.walk path e)
  | .ok ⟨place, .dir entries, h⟩ =>
    if ho : isOutside inside place then
      .directory ⟨place, path⟩ entries (directoriesLeft_cons_lt h ho)
    else .stop (.linkCycle path (pathInto inside place))
  | .ok _ => .file

/-- Goes through the entries of the directory that the walk came to last, which
is at `place` and has the path `path`; `names` lead to it from the root.

A directory is entered after it was asked for its entries by its path: the path
may have become too long, or lead over too many links. -/
def walkEntries (files : FileSystem) (follow : Bool) (visit : Encounter → Findings)
    (inside : List Ancestor) (path : PathText) (names : List Name) (place : Place) :
    Entries → Findings
  | [] => .empty
  | (name, .file _) :: rest =>
    (visit ⟨path.push name, names ++ [name], true⟩).andThen fun _ =>
      files.walkEntries follow visit inside path names place rest
  | (name, .dir inner) :: rest =>
    let found : Findings :=
      (visit ⟨path.push name, names ++ [name], false⟩).andThen fun _ =>
        -- The entries are those of the node; the request tells whether the path still leads there.
        match files.readDir (path.push name) with
        | .error e => .failed (.walk (path.push name) e)
        | .ok _ => files.walkEntries follow visit
            (⟨place ++ [name], path.push name⟩ :: inside) (path.push name)
            (names ++ [name]) (place ++ [name]) (Entries.inOrder inner)
    found.andThen fun _ => files.walkEntries follow visit inside path names place rest
  | (name, .link _) :: rest =>
    let found : Findings :=
      if follow then
        match files.lookBehind inside (path.push name) with
        | .stop e => .failed e
        | .file => visit ⟨path.push name, names ++ [name], true⟩
        | .directory here entries _ =>
          (visit ⟨path.push name, names ++ [name], false⟩).andThen fun _ =>
            files.walkEntries follow visit (here :: inside) (path.push name)
              (names ++ [name]) here.place entries.inOrder
      else visit ⟨path.push name, names ++ [name], false⟩
    found.andThen fun _ => files.walkEntries follow visit inside path names place rest
termination_by entries => (files.directoriesLeft inside, sizeOf entries)
decreasing_by
  · exact Prod.Lex.right _ (Entries.sizeOf_lt_cons _ rest)
  · refine Prod.Lex.right' _ (directoriesLeft_cons_le files _ inside) ?_
    rw [Entries.sizeOf_inOrder]
    exact Entries.sizeOf_inner_lt_cons name inner rest
  · exact Prod.Lex.right _ (Entries.sizeOf_lt_cons _ rest)
  · exact Prod.Lex.left _ _ (by assumption)
  · exact Prod.Lex.right _ (Entries.sizeOf_lt_cons _ rest)

/-- Goes through the tree below `root`.  The walk comes to the root itself first. -/
def walkTree (files : FileSystem) (follow : Bool) (visit : Encounter → Findings)
    (root : PathText) : Findings :=
  let enter (place : Place) (entries : Entries) : Findings :=
    (visit ⟨root, [], false⟩).andThen fun _ =>
      files.walkEntries follow visit [⟨place, root⟩] root [] place entries.inOrder
  match files.lstat root with
  | .error e => .failed (.walk root e)
  | .ok ⟨_, .file _, _⟩ => visit ⟨root, [], true⟩
  | .ok ⟨place, .dir entries, _⟩ => enter place entries
  | .ok ⟨_, .link _, _⟩ =>
    match files.stat root with
    | .error e => .failed (.walk root e)
    | .ok ⟨place, .dir entries, _⟩ => enter place entries
    | .ok _ => visit ⟨root, [], follow⟩

end FileSystem

end FlatArchive
