import FlatArchive.FileSystem.Path

/-!
# Trees of files

A file system is a tree of directories with files and links at the leaves.
What is *at* a place is the view on it: a place is the list of names from the
top down to a node, `node?` looks there, and `put` changes what is there and
nothing beside it (`lookup_setEntry_self`, `lookup_setEntry_of_ne`).

A directory keeps its entries in a list.  An entry that is replaced stays where
it is and a new one goes before the first greater name, so a directory that is
filled by this library is ordered by name however it was filled.  Nothing relies
on that order: whoever needs one asks for `inOrder`.
-/

namespace FlatArchive

/-- What a name in a directory stands for. -/
inductive Node
  | file (data : Bytes)
  | link (target : PathText)
  | dir (entries : List (Name × Node))
  deriving Inhabited

/-- The entries of a directory. -/
abbrev Entries := List (Name × Node)

/-- Where a node is: the names that lead to it from the top. -/
abbrev Place := List Name

namespace Entries

/-- Puts a new entry before the first one with a greater name. -/
def insertNew (name : Name) (node : Node) : Entries → Entries
  | [] => [(name, node)]
  | entry :: rest =>
    if name < entry.1 then (name, node) :: entry :: rest
    else entry :: insertNew name node rest

/-- Gives a name in a directory a meaning, in place of the one that it may have. -/
def setEntry (entries : Entries) (name : Name) (node : Node) : Entries :=
  if (entries.lookup name).isSome then
    entries.map fun entry => if entry.1 = name then (name, node) else entry
  else insertNew name node entries

/-- Takes a name out of a directory. -/
def eraseEntry (entries : Entries) (name : Name) : Entries :=
  entries.filter fun entry => entry.1 ≠ name

/-- The entries ordered by name, byte by byte. -/
def inOrder (entries : Entries) : Entries :=
  entries.mergeSort fun a b => a.1 ≤ b.1

theorem lookup_insertNew_self {entries : Entries} {name : Name} {node : Node}
    (h : entries.lookup name = none) :
    (insertNew name node entries).lookup name = some node := by
  induction entries with
  | nil => simp [insertNew]
  | cons entry rest ih =>
    obtain ⟨n, x⟩ := entry
    by_cases hn : name = n
    · simp [hn] at h
    · have hb : (name == n) = false := by simpa using hn
      rw [List.lookup_cons, hb] at h
      rw [insertNew]
      split
      · simp
      · rw [List.lookup_cons, hb]
        exact ih h

theorem lookup_insertNew_of_ne {entries : Entries} {name other : Name} {node : Node}
    (h : other ≠ name) :
    (insertNew name node entries).lookup other = entries.lookup other := by
  have hb : (other == name) = false := by simpa using h
  induction entries with
  | nil => simp [insertNew, List.lookup_cons, hb]
  | cons entry rest ih =>
    obtain ⟨n, x⟩ := entry
    rw [insertNew]
    split
    · simp [List.lookup_cons, hb]
    · simp only [List.lookup_cons, ih]

/-- A name means what it was made to mean. -/
theorem lookup_setEntry_self (entries : Entries) (name : Name) (node : Node) :
    (entries.setEntry name node).lookup name = some node := by
  rw [setEntry]
  split
  · next h =>
    induction entries with
    | nil => simp at h
    | cons entry rest ih =>
      obtain ⟨n, x⟩ := entry
      by_cases hn : n = name
      · simp [hn]
      · have hb : (name == n) = false := by simpa using fun e => hn e.symm
        rw [List.lookup_cons, hb] at h
        simp only [List.map_cons, hn, if_false, List.lookup_cons, hb]
        exact ih h
  · next h => exact lookup_insertNew_self (Option.not_isSome_iff_eq_none.mp h)

theorem lookup_map_of_ne (entries : Entries) {name other : Name} (node : Node)
    (h : other ≠ name) :
    (entries.map fun entry => if entry.1 = name then (name, node) else entry).lookup other
      = entries.lookup other := by
  have hb : (other == name) = false := by simpa using h
  induction entries with
  | nil => rfl
  | cons entry rest ih =>
    obtain ⟨n, x⟩ := entry
    by_cases hn : n = name
    · subst hn
      simp [List.lookup_cons, hb, ih]
    · simp only [List.map_cons, hn, if_false, List.lookup_cons, ih]

/-- Other names keep their meaning. -/
theorem lookup_setEntry_of_ne {entries : Entries} {name other : Name} {node : Node}
    (h : other ≠ name) :
    (entries.setEntry name node).lookup other = entries.lookup other := by
  rw [setEntry]
  split
  · exact lookup_map_of_ne entries node h
  · exact lookup_insertNew_of_ne h

theorem sizeOf_lt_cons (entry : Name × Node) (rest : Entries) :
    sizeOf rest < sizeOf (entry :: rest) := by
  rw [List.cons.sizeOf_spec]
  omega

theorem sizeOf_inner_lt_cons (name : Name) (inner rest : Entries) :
    sizeOf inner < sizeOf ((name, Node.dir inner) :: rest) := by
  rw [List.cons.sizeOf_spec, Prod.mk.sizeOf_spec, Node.dir.sizeOf_spec]
  omega

theorem sizeOf_perm {a b : Entries} (h : a.Perm b) : sizeOf a = sizeOf b := by
  induction h with
  | nil => rfl
  | cons _ _ ih => simp only [List.cons.sizeOf_spec, ih]
  | swap _ _ _ => simp only [List.cons.sizeOf_spec]; omega
  | trans _ _ iha ihb => exact iha.trans ihb

/-- Ordering entries neither adds nor drops anything. -/
@[simp] theorem sizeOf_inOrder (entries : Entries) :
    sizeOf entries.inOrder = sizeOf entries :=
  sizeOf_perm (List.mergeSort_perm _ _)

end Entries

namespace Node

/-- What a place below a node leads to. -/
def descend : Node → Place → Option Node
  | node, [] => some node
  | .dir entries, name :: rest => (entries.lookup name).bind fun node => node.descend rest
  | _, _ :: _ => none

/-- Puts a node at a place below another one.  The directory of the place has to
be there; without it nothing changes. -/
def put : Node → Place → Node → Node
  | _, [], new => new
  | .dir entries, name :: rest, new =>
    match entries.lookup name with
    | some child => .dir (Entries.setEntry entries name (child.put rest new))
    | none => if rest = [] then .dir (Entries.setEntry entries name new) else .dir entries
  | node, _ :: _, _ => node

/-- Takes the node at a place below another one away. -/
def remove : Node → Place → Node
  | .dir entries, [name] => .dir (Entries.eraseEntry entries name)
  | .dir entries, name :: rest =>
    match entries.lookup name with
    | some child => .dir (Entries.setEntry entries name (child.remove rest))
    | none => .dir entries
  | node, _ => node

end Node

namespace Entries

/-- Everything below a directory, each with the names that lead to it: depth
first, and in the order of names in each directory. -/
def listing (above : Place) : Entries → List (Place × Node)
  | [] => []
  | (name, .dir inner) :: rest =>
    (above ++ [name], .dir inner)
      :: (listing (above ++ [name]) (inOrder inner) ++ listing above rest)
  | (name, node) :: rest => (above ++ [name], node) :: listing above rest
termination_by entries => sizeOf entries
decreasing_by
  · rw [sizeOf_inOrder]
    exact sizeOf_inner_lt_cons name inner rest
  · exact sizeOf_lt_cons _ rest
  · exact sizeOf_lt_cons _ rest

/-- The places of the directories below a directory. -/
def directories (above : Place) : Entries → List Place
  | [] => []
  | (name, .dir inner) :: rest =>
    (above ++ [name]) :: (directories (above ++ [name]) inner ++ directories above rest)
  | _ :: rest => directories above rest

end Entries

/-- A tree of files, seen from its top, which is also where commands work. -/
structure FileSystem where
  entries : Entries := []

namespace FileSystem

/-- What is at a place. -/
def node? (files : FileSystem) (place : Place) : Option Node :=
  (Node.dir files.entries).descend place

/-- Puts a node at a place, if the directory of the place is there. -/
def put (files : FileSystem) (place : Place) (node : Node) : FileSystem :=
  match (Node.dir files.entries).put place node with
  | .dir entries => ⟨entries⟩
  | _ => files

/-- Takes away what is at a place. -/
def remove (files : FileSystem) (place : Place) : FileSystem :=
  match (Node.dir files.entries).remove place with
  | .dir entries => ⟨entries⟩
  | _ => files

/-- The places of all directories. -/
def directories (files : FileSystem) : List Place :=
  [] :: files.entries.directories []

end FileSystem

end FlatArchive
