import FlatArchive.Proofs.Transfer.Inventory

/-!
# Where a walk that follows links comes

A walk comes to the entries of its root, and from there to what is left of them after one was
gone through, to the entries of a directory that it enters, and to those behind a link
(`Reaches`).  It goes on as long as every link that it comes to leads to a file, or to a
directory that it is not in (`LinksLead`); a walk that comes to its end has met no other link
(`linksLead_of_collect`).
-/

namespace FlatArchive

namespace Findings

variable {first first' : Findings} {next next' : Unit → Findings}

theorem andThen_empty (findings : Findings) : (findings.andThen fun _ => .empty) = findings := by
  obtain ⟨records, failure⟩ := findings
  cases failure with
  | none => simp [andThen, empty]
  | some e => rfl

theorem andThen_congr (same : first = first')
    (others : first.failure = none → next () = next' ()) :
    first.andThen next = first'.andThen next' := by
  subst same
  unfold andThen
  split
  · rfl
  · next ended => rw [others ended]

/-- Where two walks ended well, both of them did. -/
theorem failure_of_andThen (ended : (first.andThen next).failure = none) :
    first.failure = none ∧ (next ()).failure = none := by
  unfold andThen at ended
  split at ended
  · next stopped =>
    rw [stopped] at ended
    cases ended
  · next passed => exact ⟨passed, ended⟩

end Findings

namespace FileSystem

variable {files : FileSystem} {root path : PathText} {inside : List Ancestor} {names : List Name}
  {name : Name} {place : Place} {item : Name × Node} {entries rest : Entries}

/-- A walk goes through one entry, and then through the others. -/
theorem walkEntries_cons (files : FileSystem) (follow : Bool) (inside : List Ancestor)
    (path : PathText) (names : List Name) (place : Place) (item : Name × Node) (rest : Entries) :
    files.walkEntries follow files.gather inside path names place (item :: rest) =
      (files.walkEntries follow files.gather inside path names place [item]).andThen fun _ =>
        files.walkEntries follow files.gather inside path names place rest := by
  obtain ⟨name, node⟩ := item
  cases node with
  | file data => rw [walkEntries, walkEntries, walkEntries, Findings.andThen_empty]
  | dir inner => rw [walkEntries, walkEntries, walkEntries, Findings.andThen_empty]
  | link target => rw [walkEntries, walkEntries, walkEntries, Findings.andThen_empty]

/-- From `root` a walk that follows links comes to some entries of the directory at `place`,
by the path `path`, on which it is in the directories `inside`; `names` lead there. -/
inductive Reaches (files : FileSystem) (root : PathText) :
    List Ancestor → PathText → List Name → Place → Entries → Prop
  | start {place : Place} {entries : Entries} {there : files.node? place = some (.dir entries)}
      (looked : files.stat root = .ok ⟨place, .dir entries, there⟩) :
      Reaches files root [⟨place, root⟩] root [] place entries.inOrder
  | next {inside : List Ancestor} {path : PathText} {names : List Name} {place : Place}
      {item : Name × Node} {rest : Entries}
      (reaches : Reaches files root inside path names place (item :: rest))
      (passed :
        (files.walkEntries true files.gather inside path names place [item]).failure = none) :
      Reaches files root inside path names place rest
  | enter {inside : List Ancestor} {path : PathText} {names : List Name} {place : Place}
      {name : Name} {inner entered rest : Entries}
      (reaches : Reaches files root inside path names place ((name, .dir inner) :: rest))
      (entered : files.readDir (path.push name) = .ok entered) :
      Reaches files root (⟨place ++ [name], path.push name⟩ :: inside) (path.push name)
        (names ++ [name]) (place ++ [name]) inner.inOrder
  | follow {inside : List Ancestor} {path : PathText} {names : List Name} {place there : Place}
      {name : Name} {target : PathText} {rest entries : Entries}
      {found : files.node? there = some (.dir entries)}
      (reaches : Reaches files root inside path names place ((name, .link target) :: rest))
      (looked : files.stat (path.push name) = .ok ⟨there, .dir entries, found⟩)
      (outside : isOutside inside there = true) :
      Reaches files root (⟨there, path.push name⟩ :: inside) (path.push name)
        (names ++ [name]) there entries.inOrder

/-- Every link that a walk from `root` comes to leads to a file, or to a directory that the
walk is not in. -/
def LinksLead (files : FileSystem) (root : PathText) : Prop :=
  ∀ inside path names place name target rest,
    files.Reaches root inside path names place ((name, .link target) :: rest) →
      ∃ found, files.stat (path.push name) = .ok found ∧
        ((∃ data, found.node = .file data) ∨
          ∃ entries, found.node = .dir entries ∧ isOutside inside found.place = true)

/-- Where a walk comes, it can go on. -/
theorem Reaches.stands (reaches : files.Reaches root inside path names place entries)
    (wellFormed : files.WellFormed) : files.Stands path place entries := by
  induction reaches with
  | start looked => exact stands_of_stat wellFormed looked
  | next _ _ ih => exact ih.tail
  | enter _ entered ih => exact ih.enter entered
  | follow _ looked _ _ => exact stands_of_stat wellFormed looked

/-! ## Walks that come to their end -/

/-- A link to a directory that the walk is not in is entered. -/
theorem lookBehind_of_directory {there : Place} {found : files.node? there = some (.dir entries)}
    (looked : files.stat path = .ok ⟨there, .dir entries, found⟩)
    (outside : isOutside inside there = true) :
    files.lookBehind inside path =
      .directory ⟨there, path⟩ entries (directoriesLeft_cons_lt found outside) := by
  unfold lookBehind
  simp only [looked, outside, dite_true]

/-- If the whole walk ended well, so did what was left of it wherever it came. -/
theorem Reaches.failure (reaches : files.Reaches root inside path names place entries)
    (ended : (files.collect true root).failure = none) :
    (files.walkEntries true files.gather inside path names place entries).failure = none := by
  induction reaches with
  | start looked => rwa [← collect_of_directory looked]
  | next _ _ ih =>
      rw [walkEntries_cons] at ih
      exact (Findings.failure_of_andThen ih).2
  | enter _ entered ih =>
      rw [walkEntries] at ih
      simpa only [entered, gather_other, Findings.empty_andThen] using
        (Findings.failure_of_andThen ih).1
  | follow _ looked outside ih =>
      rw [walkEntries, if_pos rfl, lookBehind_of_directory looked outside] at ih
      exact (Findings.failure_of_andThen ih).1

/-- **A walk that comes to its end has met no link that leads nowhere**, and none that leads
back. -/
theorem linksLead_of_collect (ended : (files.collect true root).failure = none) :
    files.LinksLead root := by
  intro inside path names place name target rest reaches
  have passed := reaches.failure ended
  rw [walkEntries, if_pos rfl] at passed
  have here := (Findings.failure_of_andThen passed).1
  unfold lookBehind at here
  simp only [gather_file, gather_other, Findings.empty_andThen] at here
  cases looked : files.stat (path.push name) with
  | error e => simp [looked, Findings.failed] at here
  | ok found =>
      obtain ⟨there, node, isThere⟩ := found
      cases node with
      | file data => exact ⟨_, rfl, .inl ⟨data, rfl⟩⟩
      | dir entries =>
          by_cases outside : isOutside inside there = true
          · exact ⟨_, rfl, .inr ⟨entries, rfl, outside⟩⟩
          · simp [looked, outside, Findings.failed] at here
      | link other =>
          have unread : files.read (path.push name) = .error .isADirectory := by
            simp only [read, looked]
          simp only [looked] at here
          rcases takeUp_cases files (path.push name) (names ++ [name]) with
            ⟨-, failed⟩ | ⟨_, _, -, read, -⟩
          · exact absurd here failed
          · rw [unread] at read
            cases read

end FileSystem

end FlatArchive
