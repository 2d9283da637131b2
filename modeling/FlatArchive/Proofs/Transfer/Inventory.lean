import FlatArchive.Proofs.Transfer.Accounts

/-!
# All files below a directory

What a walk that passes over links collects is told by the tree alone (`collect_inventory`):
when it comes to its end, which file it reports if it does not, which records there are and in
which order.  None of this depends on the order in which a directory keeps its entries.

The one request that a file system refuses to such a walk is one with a path that is too long
(`cases_of_stops`), so where paths are short enough all requests are granted
(`collect_of_bounded`).
-/

namespace FlatArchive.FileSystem

variable {entries : Entries} {node : Node} {root : PathText} {route : Place}
  {findings : Findings} {files other : FileSystem}

/-- What a walk from `root` needs of the tree below `home`, where `root` leads: each file
has a text for a path, and files and directories have paths that are short enough. -/
structure IsPackable (files : FileSystem) (root : PathText) (home : Place) : Prop where
  text : ∀ route data, files.label? (home ++ route) = some (.file data) →
    ∀ name ∈ route, name.IsText
  bounded : ∀ route label, files.label? (home ++ route) = some label →
    (∀ target, label ≠ .link target) → (root.extend route).length ≤ pathLimit

/-- A walk enters the directory that its root leads to. -/
theorem collect_of_directory {place : Place} {there : files.node? place = some (.dir entries)}
    (looked : files.stat root = .ok ⟨place, .dir entries, there⟩) (follow : Bool) :
    files.collect follow root =
      files.walkEntries follow files.gather [⟨place, root⟩] root [] place entries.inOrder := by
  have resolved := resolve_of_look looked
  have leads := leadsTo_of_resolve resolved (label?_eq_dir_iff.mpr ⟨entries, there⟩)
  obtain ⟨⟨place', node, there'⟩, seen, same⟩ :=
    lstat_of_leadsTo (check_of_resolve resolved).1 leads
  dsimp only at same
  rcases same with rfl | ⟨target, rfl⟩
  · obtain rfl := Option.some.inj (there.symm.trans there')
    simp only [collect, walkTree, seen, gather_other, Findings.empty_andThen]
  · simp only [collect, walkTree, seen, looked, gather_other, Findings.empty_andThen]

/-- What the entries of a directory lead to is below it. -/
theorem lead_inOrder_iff (inner : entries.WellFormed) {place : Place}
    (there : files.node? place = some (.dir entries)) :
    entries.inOrder.Lead route node ↔ route ≠ [] ∧ files.node? (place ++ route) = some node := by
  rw [Entries.lead_inOrder, node?_append, there, Option.bind_some]
  constructor
  · intro leads
    have lower : route ≠ [] := by
      obtain ⟨item, -, below, rfl, -⟩ := leads
      exact List.cons_ne_nil _ _
    exact ⟨lower, (inner.descend_dir_eq_iff lower).mpr leads⟩
  · rintro ⟨lower, found⟩
    exact (inner.descend_dir_eq_iff lower).mp found

/-- Behind the entries of a directory there are the files that are below it in the tree. -/
theorem lead_file_iff (inner : entries.WellFormed) {place : Place}
    (there : files.node? place = some (.dir entries)) {data : Bytes} :
    entries.inOrder.Lead route (.file data) ↔
      files.label? (place ++ route) = some (.file data) := by
  rw [lead_inOrder_iff inner there, label?_eq_file_iff, and_iff_right_iff_imp]
  rintro found rfl
  rw [List.append_nil, there] at found
  cases Option.some.inj found

/-- The records of a walk that came to its end, told by the tree. -/
theorem mem_records_iff (inner : entries.WellFormed) {place : Place}
    (there : files.node? place = some (.dir entries))
    (whole : findings.Whole root [] entries.inOrder) {record : FileRecord} :
    record ∈ findings.records ↔ ∃ texts data,
      files.label? (place ++ texts.map Utf8.encode) = some (.file data) ∧
        record = .ofFile ("/".intercalate texts) data := by
  rw [whole.exact]
  constructor
  · rintro ⟨route, text, data, leads, made, rfl⟩
    obtain ⟨texts, rfl, rfl⟩ := relativePath_eq_ok_iff.mp made
    exact ⟨texts, data, (lead_file_iff inner there).mp leads, rfl⟩
  · rintro ⟨texts, data, shown, rfl⟩
    exact ⟨_, _, data, (lead_file_iff inner there).mpr shown,
      relativePath_eq_ok_iff.mpr ⟨texts, rfl, rfl⟩, rfl⟩

/-- Why a walk stops is told by the tree: a file has no text for a path, or a path is too long. -/
theorem cases_of_stops (inner : entries.WellFormed) {place : Place}
    (there : files.node? place = some (.dir entries)) {e : IoError}
    (stops : Findings.Stops root [] entries.inOrder e) :
    (∃ route data, files.label? (place ++ route) = some (.file data) ∧
        (∃ name ∈ route, ¬ name.IsText) ∧ e = .pathNotText (PathText.join route)) ∨
      ∃ route label, files.label? (place ++ route) = some label ∧
        (∀ target, label ≠ .link target) ∧ pathLimit < (root.extend route).length ∧
          (e = .file .nameTooLong ∨ e = .walk (root.extend route) .nameTooLong) := by
  cases stops with
  | notText leads member noText =>
      exact .inl ⟨_, _, (lead_file_iff inner there).mp leads, ⟨_, member, noText⟩, rfl⟩
  | file leads long =>
      exact .inr ⟨_, _, (lead_file_iff inner there).mp leads, by simp, long, .inl rfl⟩
  | directory leads long =>
      have found := ((lead_inOrder_iff inner there).mp leads).2
      exact .inr ⟨_, _, label?_eq_dir_iff.mpr ⟨_, found⟩, by simp, long, .inr rfl⟩

section Root

variable {place : Place} {there : files.node? place = some (.dir entries)}
  (wellFormed : files.WellFormed) (looked : files.stat root = .ok ⟨place, .dir entries, there⟩)

include wellFormed looked

/-- A walk from a directory takes up every file below it, or says why it stopped. -/
theorem collect_accounts :
    (files.collect false root).Accounts root [] entries.inOrder := by
  have inner : entries.WellFormed := wellFormed.of_node? there
  rw [collect_of_directory looked]
  exact walkEntries_accounts rfl _ root [] place _ (stands_of_stat wellFormed looked)
    (PathText.extend_nil root).symm inner.pairwise_inOrder (by simp)

/-- A walk comes to its end exactly in a tree that has what it needs. -/
theorem collect_whole_iff :
    (files.collect false root).Whole root [] entries.inOrder ↔ files.IsPackable root place := by
  have inner : entries.WellFormed := wellFormed.of_node? there
  constructor
  · intro whole
    refine ⟨fun route data shown => ?_, fun route label shown noLink => ?_⟩
    · have leads := (lead_file_iff inner there).mpr shown
      exact exists_relativePath_iff.mp (whole.text route data leads)
    · by_cases top : route = []
      · subst top
        exact (checkPath_eq_ok_iff.mp (check_of_resolve (resolve_of_look looked)).1).2.2
      · obtain ⟨node, found, rfl⟩ := Option.map_eq_some_iff.mp shown
        refine whole.bounded route node ((lead_inOrder_iff inner there).mpr ⟨top, found⟩) ?_
        rintro target rfl
        exact noLink target rfl
  · intro packable
    refine (collect_accounts wellFormed looked).resolve_right ?_
    rintro ⟨e, -, stops⟩
    rcases cases_of_stops inner there stops with
      ⟨route, data, shown, ⟨name, member, noText⟩, -⟩ | ⟨route, label, shown, noLink, long, -⟩
    · exact noText (packable.text route data shown name member)
    · exact Nat.not_lt.mpr (packable.bounded route label shown noLink) long

/-- **Where all paths are short enough, no request of a walk is refused**: the walk comes to its
end as soon as each file has a text for a path, and there is nothing else that can stop it. -/
theorem collect_of_bounded (bounded : ∀ route label, files.label? (place ++ route) = some label →
    (∀ target, label ≠ .link target) → (root.extend route).length ≤ pathLimit) :
    (∀ cause, (files.collect false root).failure ≠ some (.file cause) ∧
        ∀ path, (files.collect false root).failure ≠ some (.walk path cause)) ∧
      ((files.collect false root).failure = none ↔
        ∀ route data, files.label? (place ++ route) = some (.file data) →
          ∀ name ∈ route, name.IsText) := by
  have accounts := collect_accounts wellFormed looked
  have noText : ∀ e, (files.collect false root).failure = some e →
      ∃ route, e = .pathNotText (PathText.join route) := by
    intro e failed
    rcases cases_of_stops (wellFormed.of_node? there) there (accounts.stops failed) with
      ⟨route, -, -, -, told⟩ | ⟨route, label, shown, noLink, long, -⟩
    · exact ⟨route, told⟩
    · exact absurd long (Nat.not_lt.mpr (bounded route label shown noLink))
  refine ⟨fun cause => ⟨fun failed => ?_, fun path failed => ?_⟩, fun ended => ?_, fun text => ?_⟩
  · obtain ⟨route, told⟩ := noText _ failed
    cases told
  · obtain ⟨route, told⟩ := noText _ failed
    cases told
  · exact ((collect_whole_iff wellFormed looked).mp (accounts.whole ended)).text
  · exact ((collect_whole_iff wellFormed looked).mpr ⟨text, bounded⟩).ended

/-- **Collecting without following links gives all files below a directory.** -/
theorem collect_complete (packable : files.IsPackable root place) :
    (files.collect false root).failure = none ∧
      ∀ route data, (∃ record ∈ (files.collect false root).records,
        record.route = route ∧ record.data = data) ↔
          files.label? (place ++ route) = some (.file data) := by
  have inner : entries.WellFormed := wellFormed.of_node? there
  have whole := (collect_whole_iff wellFormed looked).mpr packable
  have isPiece : ∀ {route node}, entries.inOrder.Lead route node → ∀ name ∈ route, name.IsPiece :=
    fun leads name member => (inner.inOrder.isEntry_of_lead leads name member).toIsPiece
  refine ⟨whole.ended, fun route data => ?_⟩
  rw [← lead_file_iff inner there]
  constructor
  · rintro ⟨record, member, rfl, rfl⟩
    obtain ⟨route, text, data, leads, made, rfl⟩ := (whole.exact record).mp member
    rwa [FileRecord.route_ofFile data made (isPiece leads)]
  · intro leads
    obtain ⟨text, made⟩ := whole.text route data leads
    exact ⟨_, (whole.exact _).mpr ⟨route, text, data, leads, made, rfl⟩,
      FileRecord.route_ofFile data made (isPiece leads), rfl⟩

end Root

/-- What is in order is told by its members. -/
theorem records_eq_of_ordered {some other : List FileRecord}
    (ordered : some.Pairwise fun a b => a.route < b.route)
    (ordered' : other.Pairwise fun a b => a.route < b.route)
    (same : ∀ record, record ∈ some ↔ record ∈ other) : some = other := by
  have nodup : ∀ {list : List FileRecord},
      (list.Pairwise fun a b => a.route < b.route) → list.Nodup := by
    intro list ordered
    refine ordered.imp ?_
    rintro a b less rfl
    exact List.lt_irrefl _ less
  refine List.Perm.eq_of_pairwise (fun a b _ _ less less' => ?_) ordered ordered'
    ((List.perm_ext_iff_of_nodup (nodup ordered) (nodup ordered')).mpr same)
  exact absurd less' (List.lt_asymm less)

/-- Trees that show the same give the same, in whatever order they keep their entries. -/
theorem collect_eq_of_label? (wellFormed : files.WellFormed) {place : Place}
    {there : files.node? place = some (.dir entries)}
    (looked : files.stat root = .ok ⟨place, .dir entries, there⟩)
    (packable : files.IsPackable root place) (wellFormed' : other.WellFormed)
    (same : other.label? = files.label?) :
    other.collect false root = files.collect false root := by
  have resolved := resolve_of_look looked
  have here : files.label? place = some .dir := label?_eq_dir_iff.mpr ⟨entries, there⟩
  have keeps : files.Keeps other := fun place label shown =>
    ⟨label, by rw [same, shown], .refl label⟩
  have leads := (leadsTo_of_resolve resolved here).mono keeps
  obtain ⟨entries', there'⟩ := label?_eq_dir_iff.mp (same ▸ here)
  have looked' : other.stat root = .ok ⟨place, .dir entries', there'⟩ :=
    look_of_resolve (resolve_of_leadsTo (check_of_resolve resolved).1 leads) there'
  have packable' : other.IsPackable root place := by
    constructor
    · rw [same]
      exact packable.text
    · rw [same]
      exact packable.bounded
  have whole := (collect_whole_iff wellFormed looked).mpr packable
  have whole' := (collect_whole_iff wellFormed' looked').mpr packable'
  have records : (other.collect false root).records = (files.collect false root).records := by
    refine records_eq_of_ordered whole'.ordered whole.ordered fun record => ?_
    rw [mem_records_iff (wellFormed'.of_node? there') there' whole',
      mem_records_iff (wellFormed.of_node? there) there whole, same]
  have failure := whole'.ended.trans whole.ended.symm
  show Findings.mk (other.collect false root).records (other.collect false root).failure =
    Findings.mk (files.collect false root).records (files.collect false root).failure
  rw [records, failure]

/-- **What a walk collects is told by the tree.**  If no request is refused, all files are
collected as soon as each has a text for a path, and otherwise one that has none is reported;
there is one record for each file, ordered by the names that lead to it, and it does not matter
in which order the entries of a directory are kept. -/
theorem collect_inventory (wellFormed : files.WellFormed) {place : Place}
    {there : files.node? place = some (.dir entries)}
    (looked : files.stat root = .ok ⟨place, .dir entries, there⟩)
    (granted : ∀ cause, (files.collect false root).failure ≠ some (.file cause) ∧
      ∀ path, (files.collect false root).failure ≠ some (.walk path cause)) :
    let found := files.collect false root
    (found.failure = none ↔ ∀ route data, files.label? (place ++ route) = some (.file data) →
        ∀ name ∈ route, name.IsText) ∧
      (∀ e, found.failure = some e → e.kind = .invalidData ∧ ∃ route data,
        files.label? (place ++ route) = some (.file data) ∧ (∃ name ∈ route, ¬ name.IsText) ∧
          e = .pathNotText (PathText.join route)) ∧
      (found.failure = none →
        (∀ record, record ∈ found.records ↔ ∃ texts data,
          files.label? (place ++ texts.map Utf8.encode) = some (.file data) ∧
            record = .ofFile ("/".intercalate texts) data) ∧
        (found.records.Pairwise fun a b => a.route < b.route) ∧
        ∀ other : FileSystem, other.WellFormed → other.label? = files.label? →
          other.collect false root = found) := by
  intro found
  have inner : entries.WellFormed := wellFormed.of_node? there
  have accounts := collect_accounts wellFormed looked
  have stopped : ∀ e, found.failure = some e → ∃ route data,
      files.label? (place ++ route) = some (.file data) ∧ (∃ name ∈ route, ¬ name.IsText) ∧
        e = .pathNotText (PathText.join route) := by
    intro e failed
    rcases cases_of_stops inner there (accounts.stops failed) with
      told | ⟨route, -, -, -, -, rfl | rfl⟩
    · exact told
    · exact absurd failed (granted _).1
    · exact absurd failed ((granted _).2 _)
  refine ⟨⟨fun ended => ?_, fun texts => ?_⟩, fun e failed => ?_, fun ended => ⟨fun record => ?_,
    (accounts.whole ended).ordered, fun other wellFormed' same => ?_⟩⟩
  · exact ((collect_whole_iff wellFormed looked).mp (accounts.whole ended)).text
  · cases failed : found.failure with
    | none => rfl
    | some e =>
        obtain ⟨route, data, shown, ⟨name, member, noText⟩, -⟩ := stopped e failed
        exact absurd (texts route data shown name member) noText
  · obtain ⟨route, data, shown, noText, rfl⟩ := stopped e failed
    exact ⟨rfl, route, data, shown, noText, rfl⟩
  · exact mem_records_iff inner there (accounts.whole ended)
  · exact collect_eq_of_label? wellFormed looked
      ((collect_whole_iff wellFormed looked).mp (accounts.whole ended)) wellFormed' same

/-- Entries out of order: a file `a.txt`, an empty directory with a name that is no text, a link,
and a directory `a` with a file `b`. -/
def shuffledEntries : Entries :=
  [([0x61, 0x2E, 0x74, 0x78, 0x74], .file [2]), ([0xFF], .dir []), ([0x6C], .link [0x61]),
    ([0x61], .dir [([0x62], .file [1])])]

theorem shuffledEntries_wellFormed : shuffledEntries.WellFormed := by
  unfold shuffledEntries
  refine .dir_cons (by decide) (by decide) .file ?_
  refine .dir_cons (by decide) (by decide) .dir_nil ?_
  refine .dir_cons (by decide) (by decide) (.link (by decide)) ?_
  exact .dir_singleton (by decide) (.dir_singleton (by decide) .file)

/-- A directory `d`. -/
def shelf (entries : Entries) : FileSystem where
  entries := [([0x64], .dir entries)]

theorem shelf_wellFormed (inner : entries.WellFormed) : (shelf entries).WellFormed := by
  unfold WellFormed shelf
  exact .dir_singleton (by decide) inner

/-- The order of entries makes no difference to what is at a place. -/
theorem label?_shelf_inOrder (inner : entries.WellFormed) :
    (shelf entries.inOrder).label? = (shelf entries).label? := by
  have same : ∀ name, entries.inOrder.lookup name = entries.lookup name := by
    intro name
    refine Option.ext fun node => ?_
    rw [inner.inOrder.lookup_iff, inner.lookup_iff, Entries.mem_inOrder]
  funext place
  rcases place with _ | ⟨first, rest⟩
  · rfl
  · by_cases here : first = [0x64]
    · subst here
      rcases rest with _ | ⟨second, rest⟩
      · rfl
      · change ((Node.dir entries.inOrder).descend (second :: rest)).map Node.label =
          ((Node.dir entries).descend (second :: rest)).map Node.label
        rw [Node.descend_dir_cons, Node.descend_dir_cons, same]
    · have other : (first == [0x64]) = false := by simpa using here
      simp [label?, node?, shelf, List.lookup_cons, other]

/-- What is below `a` comes before `a.txt`, and the link and the empty directory give nothing. -/
theorem collect_inventory_shuffled :
    let found := (shelf shuffledEntries).collect false [0x64]
    found.failure = none ∧ found.records = [.ofFile "a/b" [1], .ofFile "a.txt" [2]] ∧
      (found.records.Pairwise fun a b => a.route < b.route) ∧
      (shelf shuffledEntries.inOrder).collect false [0x64] = found := by
  have inner := shuffledEntries_wellFormed
  have collected : (shelf shuffledEntries).collect false [0x64] =
      { records := [.ofFile "a/b" [1], .ofFile "a.txt" [2]] } := by cbv
  have there : (shelf shuffledEntries).node? [[0x64]] = some (.dir shuffledEntries) := rfl
  have resolved : (shelf shuffledEntries).resolve .follow [0x64] = .ok (.found [[0x64]]) := by cbv
  obtain ⟨-, -, exact⟩ := collect_inventory (shelf_wellFormed inner)
    (look_of_resolve resolved there) (by simp [collected])
  obtain ⟨-, ordered, same⟩ := exact (by rw [collected])
  exact ⟨by rw [collected], by rw [collected], ordered,
    same _ (shelf_wellFormed inner.inOrder) (label?_shelf_inOrder inner)⟩

end FlatArchive.FileSystem
