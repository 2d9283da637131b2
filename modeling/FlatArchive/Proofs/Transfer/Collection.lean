import FlatArchive.Proofs.FileSystem.WellFormed
import FlatArchive.Proofs.Layout.RoundTrip
import FlatArchive.Proofs.Transfer.Routes

/-!
# What a walk takes up

A walk through a well-formed tree takes up records whose paths fit together: each is made
of names that a directory can hold, and none is at or below another (`walkEntries_below`).
That holds wherever links lead the walk, and also of a walk that is stopped.

It is one induction along the walk.  What is said of a directory is said of the list of
entries that is left of it, so that a step is one entry (`Findings.Below.andThen`).
-/

namespace FlatArchive

variable {names : List Name} {name : Name} {node : Node} {entries rest : Entries}
  {first findings : Findings} {next : Unit → Findings} {files : FileSystem}

/-- A record as a walk makes it: of names that a directory can hold, and with the size of
its content. -/
structure FileRecord.IsTakenUp (record : FileRecord) : Prop where
  entry : ∀ name ∈ record.route, name.IsEntry
  measured : record.measured = record

/-! ## Findings below a directory -/

/-- Each entry of a directory is found under its name. -/
theorem Entries.WellFormed.node?_entry (wellFormed : entries.WellFormed) {place : Place}
    (here : files.node? place = some (.dir entries)) {item : Name × Node}
    (member : item ∈ entries) : files.node? (place ++ [item.1]) = some item.2 := by
  rw [FileSystem.node?_append, here, Option.bind_some, Node.descend_dir_cons,
    wellFormed.lookup_iff.mpr member, Option.bind_some, Node.descend_nil]

namespace Findings

/-- What was taken up lies below the directory that `names` lead to, behind the entries
that are given, and fits together. -/
structure Below (names : List Name) (entries : Entries) (findings : Findings) : Prop where
  behind : ∀ record ∈ findings.records, ∃ item ∈ entries, ∃ lower,
    record.route = names ++ item.1 :: lower
  takenUp : ∀ record ∈ findings.records, record.IsTakenUp
  apart : findings.records.Pairwise fun a b => a.route.Apart b.route

namespace Below

theorem of_nil (none : findings.records = []) : findings.Below names entries := by
  constructor <;> simp [none]

theorem mono {more : Entries} (below : findings.Below names entries)
    (subset : ∀ item ∈ entries, item ∈ more) : findings.Below names more where
  behind record member := by
    obtain ⟨item, inside, lower, route⟩ := below.behind record member
    exact ⟨item, subset item inside, lower, route⟩
  takenUp := below.takenUp
  apart := below.apart

/-- What lies behind the entries of a directory lies behind the directory. -/
theorem lift {inner : Entries} (below : findings.Below (names ++ [name]) inner) (node : Node) :
    findings.Below names [(name, node)] where
  behind record member := by
    obtain ⟨item, -, lower, route⟩ := below.behind record member
    exact ⟨(name, node), List.mem_cons_self, item.1 :: lower, by simp [route]⟩
  takenUp := below.takenUp
  apart := below.apart

/-- What lies behind one entry, and then what lies behind the others. -/
theorem andThen {item : Name × Node} (wellFormed : Entries.WellFormed (item :: rest))
    (here : first.Below names [item]) (others : (next ()).Below names rest) :
    (first.andThen next).Below names (item :: rest) := by
  have hereAll : first.Below names (item :: rest) := here.mono fun other inside =>
    List.mem_cons.mpr (.inl (List.mem_singleton.mp inside))
  have othersAll : (next ()).Below names (item :: rest) := others.mono fun other inside =>
    List.mem_cons_of_mem item inside
  unfold Findings.andThen
  split
  · exact hereAll
  · refine ⟨fun record member => ?_, fun record member => ?_, ?_⟩
    · rcases List.mem_append.mp member with inside | behind
      · exact hereAll.behind record inside
      · exact othersAll.behind record behind
    · rcases List.mem_append.mp member with inside | behind
      · exact here.takenUp record inside
      · exact others.takenUp record behind
    · refine List.pairwise_append.mpr ⟨here.apart, others.apart, fun a inside b behind => ?_⟩
      obtain ⟨own, isItem, lower, route⟩ := here.behind a inside
      obtain ⟨other, member, lower', route'⟩ := others.behind b behind
      obtain rfl := List.mem_singleton.mp isItem
      rw [route, route']
      refine Place.apart_of_ne fun same => ?_
      exact (List.nodup_cons.mp wellFormed.distinct).1 (same ▸ List.mem_map_of_mem member)

end Below

end Findings

theorem Entries.WellFormed.entry_concat (inner : Entries.WellFormed ((name, node) :: rest))
    (entry : ∀ other ∈ names, Name.IsEntry other) :
    ∀ other ∈ names ++ [name], Name.IsEntry other := by
  intro other member
  rcases List.mem_append.mp member with above | last
  · exact entry other above
  · obtain rfl := List.mem_singleton.mp last
    exact inner.entry List.mem_cons_self

namespace FileSystem

/-! ## One file -/

/-- Either a file is taken up with its content, under the text of its names, or the walk stops and
nothing is. -/
theorem takeUp_cases (files : FileSystem) (path : PathText) (names : List Name) :
    (files.takeUp path names).records = [] ∧ (files.takeUp path names).failure ≠ none ∨
      ∃ text data, relativePath names = .ok text ∧ files.read path = .ok data ∧
        files.takeUp path names = { records := [.ofFile text data] } := by
  unfold takeUp
  cases made : relativePath names with
  | error e => exact .inl ⟨rfl, by simp [Findings.failed]⟩
  | ok text =>
      cases read : files.read path with
      | error e => exact .inl ⟨rfl, by simp [Findings.failed]⟩
      | ok data => exact .inr ⟨text, data, rfl, rfl, rfl⟩

/-- What is taken up under a name is behind the entry of that name. -/
theorem takeUp_below {path : PathText} (entry : ∀ other ∈ names ++ [name], Name.IsEntry other)
    (node : Node) : (files.takeUp path (names ++ [name])).Below names [(name, node)] := by
  rcases takeUp_cases files path (names ++ [name]) with ⟨none, -⟩ | ⟨text, data, made, -, taken⟩
  · exact .of_nil none
  · have route : (FileRecord.ofFile text data).route = names ++ [name] :=
      FileRecord.route_ofFile data made fun other member => (entry other member).toIsPiece
    rw [taken]
    refine ⟨?_, ?_, List.pairwise_singleton _ _⟩
    · rintro record member
      obtain rfl := List.mem_singleton.mp member
      exact ⟨(name, node), List.mem_cons_self, [], route⟩
    · rintro record member
      obtain rfl := List.mem_singleton.mp member
      exact ⟨route ▸ entry, rfl⟩

/-! ## Any walk -/

section Visits

variable {visit : Encounter → Findings} {holds : Findings → Prop} (visits : ∀ v, holds (visit v))
  (empty : holds .empty) (failed : ∀ e, holds (.failed e))
  (andThen : ∀ first next, holds first → holds (next ()) → holds (first.andThen next))

include visits empty failed andThen

/-- What holds of every visit holds of a part of a walk, whatever the walk comes to there. -/
theorem walkEntries_of_visits (follow : Bool) (inside : List Ancestor) (path : PathText)
    (names : List Name) (place : Place) (entries : Entries) :
    holds (files.walkEntries follow visit inside path names place entries) := by
  fun_induction walkEntries files follow visit inside path names place entries with
  | case1 => exact empty
  | case2 inside path names place name rest data ih => exact andThen _ _ (visits _) ih
  | case3 inside path names place name inner rest found ih2 ih1 =>
      -- A directory is visited whether or not it can be entered.
      refine andThen _ _ (andThen _ _ (visits _) ?_) ih1
      split
      · exact failed _
      · exact ih2
  | case4 inside path names place name target rest found ih2 ih1 =>
      refine andThen _ _ ?_ ih1
      dsimp only [found]
      split
      · split
        · exact failed _
        · exact visits _
        · next here entries fewer behind =>
          exact andThen _ _ (visits _) (ih2 here entries fewer)
      · exact visits _

/-- **What holds of every visit holds of a whole walk**, if it carries over from parts of a walk
to both together. -/
theorem walkTree_of_visits (follow : Bool) (root : PathText) :
    holds (files.walkTree follow visit root) := by
  have enter : ∀ place (entries : Entries), holds ((visit ⟨root, [], false⟩).andThen fun _ =>
      files.walkEntries follow visit [⟨place, root⟩] root [] place entries.inOrder) :=
    fun place entries => andThen _ _ (visits _)
      (walkEntries_of_visits visits empty failed andThen follow _ _ _ _ _)
  unfold walkTree
  dsimp only
  split
  · exact failed _
  · exact visits _
  · exact enter _ _
  · split
    · exact failed _
    · exact enter _ _
    · exact visits _

end Visits

theorem WellFormed.of_lookBehind (wellFormed : files.WellFormed) {inside : List Ancestor}
    {path : PathText} {here : Ancestor} {entries : Entries}
    {fewer : files.directoriesLeft (here :: inside) < files.directoriesLeft inside}
    (behind : files.lookBehind inside path = .directory here entries fewer) :
    entries.WellFormed := by
  unfold lookBehind at behind
  split at behind
  · cases behind
  · next found _ =>
    split at behind
    · cases behind
      exact wellFormed.of_node? found
    · cases behind
  · cases behind

/-- **What a walk takes up fits together**, wherever links lead it and wherever it stops. -/
theorem walkEntries_below (wellFormed : files.WellFormed) (follow : Bool)
    (inside : List Ancestor) (path : PathText) (names : List Name) (place : Place)
    (entries : Entries) (inner : entries.WellFormed) (entry : ∀ name ∈ names, name.IsEntry) :
    (files.walkEntries follow files.gather inside path names place entries).Below names
      entries := by
  fun_induction walkEntries files follow files.gather inside path names place entries with
  | case1 => exact .of_nil rfl
  | case2 inside path names place name rest data ih =>
      exact .andThen inner (takeUp_below (inner.entry_concat entry) _) (ih inner.tail entry)
  | case3 inside path names place name inner' rest found ih2 ih1 =>
      refine .andThen inner ?_ (ih1 inner.tail entry)
      have deeper : Entries.WellFormed inner' := inner.inner List.mem_cons_self
      simp only [found, gather_other, Findings.empty_andThen]
      split
      · exact .of_nil rfl
      · exact (ih2 deeper.inOrder (inner.entry_concat entry)).lift _
  | case4 inside path names place name target rest found ih2 ih1 =>
      refine .andThen inner ?_ (ih1 inner.tail entry)
      simp only [found, gather_file, gather_other, Findings.empty_andThen]
      split
      · split
        · exact .of_nil rfl
        · exact takeUp_below (inner.entry_concat entry) _
        · next here entries fewer behind =>
          have deeper : entries.WellFormed := wellFormed.of_lookBehind behind
          exact (ih2 here entries fewer deeper.inOrder (inner.entry_concat entry)).lift _
      · exact .of_nil rfl

/-! ## Whole walks -/

/-- What a root leads to is a file, and not a directory with files below it. -/
def IsFileRoot (files : FileSystem) (follow : Bool) (root : PathText) : Prop :=
  ∃ found data, files.look (if follow then .follow else .keep) root = .ok found ∧
    found.node = .file data

theorem isFileRoot_iff (follow : Bool) {root : PathText} {found : files.Found}
    (looked : files.look (if follow then .follow else .keep) root = .ok found) :
    files.IsFileRoot follow root ↔ ∃ data, found.node = .file data := by
  unfold IsFileRoot
  rw [looked]
  constructor
  · rintro ⟨other, data, same, isFile⟩
    obtain rfl := Except.ok.inj same
    exact ⟨data, isFile⟩
  · rintro ⟨data, isFile⟩
    exact ⟨found, data, rfl, isFile⟩

/-- What is no link is found in both ways of looking. -/
theorem look_of_lstat {root : PathText} {found : files.Found}
    (looked : files.lstat root = .ok found) (other : ∀ target, found.node ≠ .link target)
    (follow : Bool) :
    files.look (if follow then .follow else .keep) root = .ok found := by
  cases follow with
  | false => exact looked
  | true => exact stat_of_lstat looked other

/-- A root that is a file is taken up with no name, and below any other root there are names. -/
theorem collect_cases (wellFormed : files.WellFormed) {follow : Bool} {root : PathText}
    (ended : (files.collect follow root).failure = none) :
    files.IsFileRoot follow root ∧ files.collect follow root = files.takeUp root [] ∨
      ¬ files.IsFileRoot follow root ∧
        ∃ entries, (files.collect follow root).Below [] entries := by
  have walked : ∀ place (entries : Entries), files.node? place = some (.dir entries) →
      (files.walkEntries follow files.gather [⟨place, root⟩] root [] place entries.inOrder).Below []
        entries.inOrder := fun place entries there =>
    walkEntries_below wellFormed follow _ root [] place _
      (Entries.WellFormed.inOrder (wellFormed.of_node? there)) (by simp)
  rcases looked : files.lstat root with e | ⟨place, node, there⟩
  · simp [collect, walkTree, looked, Findings.failed] at ended
  · cases node with
    | file data =>
        have isFile := isFileRoot_iff follow (look_of_lstat looked (by simp) follow)
        exact .inl ⟨isFile.mpr ⟨data, rfl⟩, by simp only [collect, walkTree, looked, gather_file]⟩
    | dir entries =>
        have isFile := isFileRoot_iff follow (look_of_lstat looked (by simp) follow)
        refine .inr ⟨by simp [isFile], Entries.inOrder entries, ?_⟩
        simp only [collect, walkTree, looked, gather_other, Findings.empty_andThen]
        exact walked place entries there
    | link target =>
        rcases seen : files.stat root with e | ⟨place', node', there'⟩
        · simp [collect, walkTree, looked, seen, Findings.failed] at ended
        · cases follow with
          | false =>
              have isFile : ¬ files.IsFileRoot false root := by
                simp [isFileRoot_iff false looked]
              cases node' with
              | dir entries =>
                  refine .inr ⟨isFile, Entries.inOrder entries, ?_⟩
                  simp only [collect, walkTree, looked, seen, gather_other, Findings.empty_andThen]
                  exact walked place' entries there'
              | file data =>
                  exact .inr ⟨isFile, [],
                    .of_nil (by simp [collect, walkTree, looked, seen, Findings.empty])⟩
              | link other =>
                  exact .inr ⟨isFile, [],
                    .of_nil (by simp [collect, walkTree, looked, seen, Findings.empty])⟩
          | true =>
              have isFile := isFileRoot_iff true seen
              cases node' with
              | dir entries =>
                  refine .inr ⟨by simp [isFile], Entries.inOrder entries, ?_⟩
                  simp only [collect, walkTree, looked, seen, gather_other, Findings.empty_andThen]
                  exact walked place' entries there'
              | file data =>
                  exact .inl ⟨isFile.mpr ⟨data, rfl⟩, by simp [collect, walkTree, looked, seen]⟩
              | link other =>
                  -- not even a walk that ended at a link would give a record
                  have unread : files.read root = .error .isADirectory := by
                    simp only [read, seen]
                  have collected : files.collect true root = files.takeUp root [] := by
                    simp [collect, walkTree, looked, seen]
                  rw [collected] at ended
                  rcases takeUp_cases files root [] with ⟨-, failed⟩ | ⟨_, _, -, read, -⟩
                  · exact absurd ended failed
                  · rw [unread] at read
                    cases read

end FileSystem

end FlatArchive
