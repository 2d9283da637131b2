import FlatArchive.Proofs.Transfer.Extraction
import FlatArchive.Proofs.Transfer.Inventory
import FlatArchive.Proofs.Transfer.Packing
import FlatArchive.Proofs.Transfer.Unpacking

/-!
# What was packed comes back

The archive file that packing leaves holds the records that were collected, and these fit
together, so unpacking it into a new directory succeeds and gives a tree that is described
by the records (`unpack_of_pack`).  From this follow two statements about trees.

Whatever can be packed can be unpacked, with one exception: a root that is a file is packed
as a record with an empty path, and that is refused (`unpack_pack_result`).

A directory that is packed without following links comes back with all its files, and with
no directory but those that the files need (`unpack_pack_tree`), as long as everything in it
can be reached by a path that is not too long.
-/

namespace FlatArchive.FileSystem

open Relation Walk

variable {files packed : FileSystem} {follow : Bool} {directory archive out : PathText}
  {records : List FileRecord} {summary : PackSummary}

/-! ## From the archive file -/

/-- An archive file is unpacked as the records are extracted that were written to it. -/
theorem unpack_written (written : files.writeFile archive (Layout.encode records) = .ok packed)
    (fits : Layout.FitsWords records) (takenUp : ∀ record ∈ records, record.IsTakenUp)
    (out : PathText) :
    (packed.unpack archive out).files = (packed.extractAll out records).files ∧
      (packed.unpack archive out).result =
        (packed.extractAll out records).result.map fun _ => records.length := by
  have measured : records.map FileRecord.measured = records :=
    (List.map_congr_left fun record member => (takenUp record member).measured).trans
      (List.map_id records)
  have decoded : decode (Layout.encode records) = .ok records := by
    have holds := Layout.holds_encode fits
    rw [measured] at holds
    exact ((decode_decides _).ok_iff records).mpr holds
  exact unpack_of_decode_ok (read_of_writeFile written) decoded

/-- **Records that fit together come back** from the archive file that they were written to. -/
theorem unpack_of_pack {names : List Name} {entries : Entries} {findings : Findings}
    (written : files.writeFile archive (Layout.encode findings.records) = .ok packed)
    (fits : Layout.FitsWords findings.records) (below : findings.Below names entries)
    (free : packed.IsFree out)
    (bounded : ∀ record ∈ findings.records, (out.extend record.route).length ≤ pathLimit) :
    (packed.unpack archive out).result = .ok findings.records.length ∧
      ∃ home, (packed.unpack archive out).files.LeadsTo out.pieces home ∧
        (packed.unpack archive out).files.Unpacked home findings.records := by
  have fitsBelow : ∀ record ∈ findings.records, record.FitsBelow out := by
    intro record member
    obtain ⟨item, -, lower, route⟩ := below.behind record member
    exact ⟨by simp [route], (below.takenUp record member).entry, bounded record member⟩
  obtain ⟨same, result⟩ := unpack_written written fits below.takenUp out
  obtain ⟨ended, home, leads, unpacked⟩ := extractAll_of_apart free fitsBelow below.apart
  rw [same, result, ended]
  exact ⟨rfl, home, leads, unpacked⟩

/-! ## Whatever can be packed -/

/-- A record with an empty path is refused. -/
theorem extractAll_pathless (free : files.IsFree out) {record : FileRecord}
    (pathless : record.path = "") :
    (files.extractAll out [record]).result = .error (.pathEmpty "") := by
  obtain ⟨middle, home, made, -, -, -⟩ := free.createDirAll
  have refused : targetNames "" = .error (.pathEmpty "") := by decide
  simp only [extractAll, made, extractEach, extractFile, pathless, refused]

/-- **Whatever can be packed can be unpacked**, unless it is a file and no directory. -/
theorem unpack_pack_result (wellFormed : files.WellFormed)
    (packed : (files.pack follow directory archive).result = .ok summary)
    (small : Layout.totalSize (files.collect follow directory).records < 2 ^ 63)
    (free : (files.pack follow directory archive).files.IsFree out)
    (bounded : ∀ record ∈ (files.collect follow directory).records,
      (out.extend record.route).length ≤ pathLimit) :
    (¬ files.IsFileRoot follow directory →
        ((files.pack follow directory archive).files.unpack archive out).result =
          .ok summary.files) ∧
      (files.IsFileRoot follow directory →
        ((files.pack follow directory archive).files.unpack archive out).result =
          .error (.pathEmpty "")) := by
  obtain ⟨ended, written, rfl⟩ := pack_eq_ok_iff.mp ⟨packed, rfl⟩
  have fits := Layout.fitsWords_iff.mpr small
  rcases collect_cases wellFormed ended with ⟨isFile, collected⟩ | ⟨other, entries, below⟩
  · refine ⟨fun other => absurd isFile other, fun _ => ?_⟩
    rcases takeUp_cases files directory [] with ⟨-, failed⟩ | ⟨text, data, made, -, taken⟩
    · rw [collected] at ended
      exact absurd ended failed
    · obtain ⟨_ | _, cut, rfl⟩ := relativePath_eq_ok_iff.mp made
      · have route : (FileRecord.ofFile "" data).route = [] := rfl
        rw [collected, taken] at written fits
        obtain ⟨-, result⟩ := unpack_written written fits (by
          rintro record member
          obtain rfl := List.mem_singleton.mp member
          exact ⟨by simp [route], rfl⟩) out
        rw [result, extractAll_pathless free rfl]
        rfl
      · cases cut
  · exact ⟨fun _ => (unpack_of_pack written fits below free bounded).1,
      fun isFile => absurd isFile other⟩

/-- A file `f`, and no directory. -/
def loneFile : FileSystem where
  entries := [([0x66], .file [1])]

theorem loneFile_wellFormed : loneFile.WellFormed := by
  unfold WellFormed loneFile
  exact .dir_singleton (by decide) .file

theorem loneFile_records : (loneFile.collect false [0x66]).records = [.ofFile "" [1]] := by cbv

theorem loneFile_pack : (loneFile.pack false [0x66] [0x61]).result = .ok ⟨1, 62⟩ := by cbv

theorem loneFile_small :
    Layout.totalSize (loneFile.collect false [0x66]).records < 2 ^ 63 := by
  rw [loneFile_records]
  decide

theorem loneFile_isFree : (loneFile.pack false [0x66] [0x61]).files.IsFree [0x6F] :=
  .of_name (by decide) (by cbv)

theorem loneFile_bounded : ∀ record ∈ (loneFile.collect false [0x66]).records,
    (PathText.extend [0x6F] record.route).length ≤ pathLimit := by
  rw [loneFile_records]
  decide

/-- A directory `d` with a file `f`. -/
def shallow : FileSystem where
  entries := [([0x64], .dir [([0x66], .file [1])])]

theorem shallow_wellFormed : shallow.WellFormed := by
  unfold WellFormed shallow
  exact .dir_singleton (by decide) (.dir_singleton (by decide) .file)

/-- The file `f` is packed and refused, and the directory `d` comes back. -/
theorem unpack_pack_result_roots :
    ((loneFile.pack false [0x66] [0x61]).result = .ok ⟨1, 62⟩ ∧
        loneFile.IsFileRoot false [0x66] ∧
        ((loneFile.pack false [0x66] [0x61]).files.unpack [0x61] [0x6F]).result =
          .error (.pathEmpty "")) ∧
      (shallow.pack false [0x64] [0x61]).result = .ok ⟨1, 63⟩ ∧
        ¬ shallow.IsFileRoot false [0x64] ∧
        ((shallow.pack false [0x64] [0x61]).files.unpack [0x61] [0x6F]).result = .ok 1 := by
  constructor
  · have isFile : loneFile.IsFileRoot false [0x66] :=
      ⟨⟨[[0x66]], .file [1], rfl⟩, [1], by cbv, rfl⟩
    exact ⟨loneFile_pack, isFile, (unpack_pack_result loneFile_wellFormed loneFile_pack
      loneFile_small loneFile_isFree loneFile_bounded).2 isFile⟩
  · have packed : (shallow.pack false [0x64] [0x61]).result = .ok ⟨1, 63⟩ := by cbv
    have records : (shallow.collect false [0x64]).records = [.ofFile "f" [1]] := by cbv
    have there : shallow.node? [[0x64]] = some (.dir [([0x66], .file [1])]) := rfl
    have looked : shallow.lstat [0x64] = .ok ⟨[[0x64]], _, there⟩ := by cbv
    have noFile : ¬ shallow.IsFileRoot false [0x64] := by
      simp [isFileRoot_iff false looked]
    have free : (shallow.pack false [0x64] [0x61]).files.IsFree [0x6F] :=
      .of_name (by decide) (by cbv)
    have small : Layout.totalSize (shallow.collect false [0x64]).records < 2 ^ 63 := by
      rw [records]
      decide
    have bounded : ∀ record ∈ (shallow.collect false [0x64]).records,
        (PathText.extend [0x6F] record.route).length ≤ pathLimit := by
      rw [records]
      decide
    exact ⟨packed, noFile,
      (unpack_pack_result shallow_wellFormed packed small free bounded).1 noFile⟩

/-- **Not everything that can be packed can be unpacked.** -/
theorem not_unpacks_everything_packed :
    ¬ ∀ (files : FileSystem) (follow : Bool) (directory archive out : PathText)
        (summary : PackSummary), files.WellFormed →
        (files.pack follow directory archive).result = .ok summary →
        Layout.totalSize (files.collect follow directory).records < 2 ^ 63 →
        (files.pack follow directory archive).files.IsFree out →
        (∀ record ∈ (files.collect follow directory).records,
          (out.extend record.route).length ≤ pathLimit) →
        ((files.pack follow directory archive).files.unpack archive out).result =
          .ok summary.files := by
  intro unpacks
  have unpacked := unpacks loneFile false [0x66] [0x61] [0x6F] _ loneFile_wellFormed
    loneFile_pack loneFile_small loneFile_isFree loneFile_bounded
  have refused : ((loneFile.pack false [0x66] [0x61]).files.unpack [0x61] [0x6F]).result =
      .error (.pathEmpty "") := by cbv
  rw [refused] at unpacked
  cases unpacked

/-! ## Directories without links -/

/-- Below `home` there are the files that are below `place` in another tree, the directories
above them, and nothing else. -/
structure HasFilesOf (after : FileSystem) (home : Place) (before : FileSystem) (place : Place) :
    Prop where
  file : ∀ route data, after.label? (home ++ route) = some (.file data) ↔
    before.label? (place ++ route) = some (.file data)
  dir : ∀ route, route ≠ [] → (after.label? (home ++ route) = some .dir ↔
    ∃ lower data, lower ≠ [] ∧ before.label? (place ++ (route ++ lower)) = some (.file data))
  unlinked : ∀ route target, after.label? (home ++ route) ≠ some (.link target)

/-- The routes to the files below a place. -/
def fileRoutes (files : FileSystem) (place : Place) : Set Place :=
  {route | ∃ data, files.label? (place ++ route) = some (.file data)}

section Exact

variable {place home : Place}
  (exact : ∀ route data, (∃ record ∈ records, record.route = route ∧ record.data = data) ↔
    files.label? (place ++ route) = some (.file data))

include exact

/-- Records that are apart are as many as there are routes. -/
theorem ncard_fileRoutes (apart : records.Pairwise fun a b => a.route.Apart b.route) :
    (files.fileRoutes place).ncard = records.length := by
  have distinct : (records.map FileRecord.route).Nodup := by
    refine List.pairwise_map.mpr (apart.imp ?_)
    intro a b apart same
    exact apart.1 (same ▸ List.prefix_refl _)
  have routes : files.fileRoutes place = ↑(records.map FileRecord.route).toFinset := by
    ext route
    simp only [fileRoutes, Set.mem_ofPred_eq, ← exact, List.coe_toFinset, List.mem_map]
    constructor
    · rintro ⟨data, record, member, same, -⟩
      exact ⟨record, member, same⟩
    · rintro ⟨record, member, same⟩
      exact ⟨record.data, record, member, same, rfl⟩
  rw [routes, Set.ncard_coe_finset, List.toFinset_card_of_nodup distinct, List.length_map]

/-- A tree that is described by the records of all files has these files. -/
theorem Unpacked.hasFilesOf {after : FileSystem} (unpacked : after.Unpacked home records)
    (here : after.label? home = some .dir) :
    after.HasFilesOf home files place := by
  -- what is at a route depends on how it lies to the records
  have cases : ∀ route, (∃ record ∈ records, record.route = route ∧
        after.label? (home ++ route) = some (.file record.data)) ∨
      (route = [] ∨ ∃ record ∈ records, route <+: record.route ∧ route ≠ record.route) ∧
        after.label? (home ++ route) = some .dir ∨
      after.label? (home ++ route) = none := by
    intro route
    by_cases top : route = []
    · exact .inr (.inl ⟨.inl top, by simpa [top] using here⟩)
    · by_cases above : ∃ record ∈ records, route <+: record.route
      · obtain ⟨record, member, front⟩ := above
        by_cases whole : route = record.route
        · exact .inl ⟨record, member, whole.symm, whole ▸ unpacked.file record member⟩
        · exact .inr (.inl ⟨.inr ⟨record, member, front, whole⟩,
            unpacked.dir record member route front whole⟩)
      · push Not at above
        exact .inr (.inr (unpacked.absent route top above))
  refine ⟨fun route data => ⟨fun shown => ?_, fun shown => ?_⟩,
    fun route lower => ⟨fun shown => ?_, ?_⟩, fun route target shown => ?_⟩
  · rcases cases route with ⟨record, member, same, isFile⟩ | ⟨-, isDir⟩ | isNone
    · obtain rfl : record.data = data := by simpa [isFile] using shown
      exact (exact route record.data).mp ⟨record, member, same, rfl⟩
    · simp [isDir] at shown
    · simp [isNone] at shown
  · obtain ⟨record, member, rfl, rfl⟩ := (exact route data).mpr shown
    exact unpacked.file record member
  · rcases cases route with ⟨record, -, -, isFile⟩ | ⟨above, -⟩ | isNone
    · simp [isFile] at shown
    · obtain ⟨record, member, ⟨below, whole⟩, proper⟩ := above.resolve_left lower
      refine ⟨below, record.data, ?_, (exact _ _).mp ⟨record, member, whole.symm, rfl⟩⟩
      rintro rfl
      exact proper (by rw [← whole, List.append_nil])
    · simp [isNone] at shown
  · rintro ⟨below, data, more, shown⟩
    obtain ⟨record, member, whole, -⟩ := (exact _ data).mpr shown
    refine unpacked.dir record member route ⟨below, whole.symm⟩ ?_
    rintro rfl
    exact more (by simpa using whole)
  · rcases cases route with ⟨record, -, -, isFile⟩ | ⟨-, isDir⟩ | isNone
    · simp [isFile] at shown
    · simp [isDir] at shown
    · simp [isNone] at shown

end Exact

/-- **A directory comes back with all its files**, and with no directory but those that the
files need. -/
theorem unpack_pack_tree (wellFormed : files.WellFormed) {place : Place} {entries : Entries}
    {there : files.node? place = some (.dir entries)}
    (looked : files.lstat directory = .ok ⟨place, .dir entries, there⟩)
    (packable : files.IsPackable directory place)
    (small : Layout.totalSize (files.collect false directory).records < 2 ^ 63)
    (writable : ∃ after, files.writeFile archive [] = .ok after)
    (free : (files.pack false directory archive).files.IsFree out)
    (bounded : ∀ route ∈ files.fileRoutes place, (out.extend route).length ≤ pathLimit) :
    (∃ bytes, (files.pack false directory archive).result =
        .ok ⟨(files.fileRoutes place).ncard, bytes⟩) ∧
      ((files.pack false directory archive).files.unpack archive out).result =
        .ok (files.fileRoutes place).ncard ∧
      ∃ home, ((files.pack false directory archive).files.unpack archive out).files.resolve
          .follow out = .ok (.found home) ∧
        ((files.pack false directory archive).files.unpack archive out).files.HasFilesOf home
          files place := by
  obtain ⟨ended, exact⟩ :=
    collect_complete wellFormed (stat_of_lstat looked (by simp)) packable
  have below : ∃ inner, (files.collect false directory).Below [] inner := by
    rcases collect_cases wellFormed ended with ⟨⟨found, data, seen, isFile⟩, -⟩ | ⟨-, below⟩
    · obtain rfl := Except.ok.inj (looked.symm.trans seen)
      cases isFile
    · exact below
  obtain ⟨inner, below⟩ := below
  -- Whether a file can be written does not depend on what is written.
  obtain ⟨_, possible⟩ := writable
  obtain ⟨packed, written⟩ :=
    writeFile_other possible (Layout.encode (files.collect false directory).records)
  obtain ⟨result, same⟩ := pack_eq_ok_iff.mpr ⟨ended, written, rfl⟩
  have count := ncard_fileRoutes exact below.apart
  rw [same] at free ⊢
  obtain ⟨extracted, home, leads, unpacked⟩ := unpack_of_pack written
    (Layout.fitsWords_iff.mpr small) below free fun record member =>
      bounded record.route ⟨record.data, (exact _ _).mp ⟨record, member, rfl, rfl⟩⟩
  refine ⟨⟨_, by rw [result, count]⟩, by rw [extracted, count], home,
    resolve_of_leadsTo free.check leads, ?_⟩
  exact unpacked.hasFilesOf exact leads.label?_home

/-- A directory `d` with a file `f`, a link, and a directory `e` in which there is an empty
file `g`. -/
def nested : FileSystem where
  entries := [([0x64], .dir [([0x65], .dir [([0x67], .file [])]), ([0x66], .file [1]),
    ([0x6C], .link [0x66])])]

theorem nested_wellFormed : nested.WellFormed := by
  unfold WellFormed nested
  refine .dir_singleton (by decide) ?_
  refine .dir_cons (by decide) (by decide) (.dir_singleton (by decide) .file) ?_
  refine .dir_cons (by decide) (by decide) .file ?_
  exact .dir_singleton (by decide) (.link (by decide))

theorem nested_routes {route : Place} {label : Label}
    (shown : nested.label? ([[0x64]] ++ route) = some label) :
    route ∈ [[], [[0x65]], [[0x65], [0x67]], [[0x66]], [[0x6C]]] := by
  obtain ⟨node, found, -⟩ := Option.map_eq_some_iff.mp shown
  rw [node?_append] at found
  obtain ⟨directory, here, found⟩ := Option.bind_eq_some_iff.mp found
  obtain rfl := Option.some.inj here
  rcases route with _ | ⟨first, rest⟩
  · exact List.mem_cons_self
  · obtain ⟨child, member, found⟩ := Node.exists_of_descend found
    simp only [List.mem_cons, List.not_mem_nil, or_false, Prod.mk.injEq] at member
    rcases member with ⟨rfl, rfl⟩ | ⟨rfl, rfl⟩ | ⟨rfl, rfl⟩
    · rcases rest with _ | ⟨second, rest⟩
      · decide
      · obtain ⟨child, member, found⟩ := Node.exists_of_descend found
        simp only [List.mem_cons, List.not_mem_nil, or_false, Prod.mk.injEq] at member
        obtain ⟨rfl, rfl⟩ := member
        rcases rest with _ | ⟨third, rest⟩
        · decide
        · simp [Node.descend] at found
    · rcases rest with _ | ⟨second, rest⟩
      · decide
      · simp [Node.descend] at found
    · rcases rest with _ | ⟨second, rest⟩
      · decide
      · simp [Node.descend] at found

/-- The archive is written into the directory that was packed. -/
theorem unpack_pack_tree_nested :
    let packed := nested.pack false [0x64] [0x64, slash, 0x61]
    let unpacked := packed.files.unpack [0x64, slash, 0x61] [0x6F]
    nested.IsPackable [0x64] [[0x64]] ∧ packed.files.IsFree [0x6F] ∧
      (∃ bytes, packed.result = .ok ⟨(nested.fileRoutes [[0x64]]).ncard, bytes⟩) ∧
      unpacked.result = .ok (nested.fileRoutes [[0x64]]).ncard ∧
      ∃ home, unpacked.files.resolve .follow [0x6F] = .ok (.found home) ∧
        unpacked.files.HasFilesOf home nested [[0x64]] := by
  intro packed unpacked
  have there : nested.node? [[0x64]] = some (.dir [([0x65], .dir [([0x67], .file [])]),
      ([0x66], .file [1]), ([0x6C], .link [0x66])]) := rfl
  have looked : nested.lstat [0x64] = .ok ⟨[[0x64]], _, there⟩ := by cbv
  have texts : ∀ route ∈ [[], [[0x65]], [[0x65], [0x67]], [[0x66]], [[0x6C]]],
      ∀ name ∈ route, Name.IsText name := by
    simp only [List.forall_mem_cons, List.not_mem_nil, false_implies, implies_true, and_true,
      true_and]
    exact ⟨⟨"e", rfl⟩, ⟨⟨"e", rfl⟩, ⟨"g", rfl⟩⟩, ⟨"f", rfl⟩, ⟨"l", rfl⟩⟩
  have packable : nested.IsPackable [0x64] [[0x64]] := by
    refine ⟨fun route data shown => texts route (nested_routes shown), ?_⟩
    intro route label shown _
    have short : ∀ route ∈ [[], [[0x65]], [[0x65], [0x67]], [[0x66]], [[0x6C]]],
        (PathText.extend [0x64] route).length ≤ pathLimit := by decide
    exact short route (nested_routes shown)
  have small : Layout.totalSize (nested.collect false [0x64]).records < 2 ^ 63 := by
    have collected :
        (nested.collect false [0x64]).records = [.ofFile "e/g" [], .ofFile "f" [1]] := by
      cbv
    rw [collected]
    decide
  have writable : ∃ after, nested.writeFile [0x64, slash, 0x61] [] = .ok after := ⟨_, by cbv⟩
  have free : (nested.pack false [0x64] [0x64, slash, 0x61]).files.IsFree [0x6F] :=
    .of_name (by decide) (by cbv)
  have bounded : ∀ route ∈ nested.fileRoutes [[0x64]],
      (PathText.extend [0x6F] route).length ≤ pathLimit := by
    rintro route ⟨data, shown⟩
    have short : ∀ route ∈ [[], [[0x65]], [[0x65], [0x67]], [[0x66]], [[0x6C]]],
        (PathText.extend [0x6F] route).length ≤ pathLimit := by decide
    exact short route (nested_routes shown)
  exact ⟨packable, free,
    unpack_pack_tree nested_wellFormed looked packable small writable free bounded⟩

/-! ## A path that is too long -/

/-- The directory `d` with slashes behind it. -/
def slashed (n : Nat) : PathText :=
  [0x64] ++ List.replicate n slash

theorem checkPath_slashed {n : Nat} (short : n < pathLimit) : checkPath (slashed n) = .ok () := by
  refine checkPath_eq_ok_iff.mpr ⟨?_, by simp [slashed], ?_⟩
  · simp [slashed, slash]
  · simp [slashed]
    omega

/-- However many slashes follow, the path leads to the directory. -/
theorem lstat_slashed {n : Nat} (short : n < pathLimit)
    (there : shallow.node? [[0x64]] = some (.dir [([0x66], .file [1])])) :
    shallow.lstat (slashed n) = .ok ⟨[[0x64]], .dir [([0x66], .file [1])], there⟩ := by
  have pieces : (slashed n).pieces = [[0x64]] :=
    (PathText.pieces_append_slashes _ _).trans (PathText.pieces_of_isPiece (by decide))
  have look : Mode.keep.LooksUp (slashed n).endsInSlash [0x64] [] :=
    .of_plain (by decide) (by decide) (by simp)
  have resolved : shallow.resolve .keep (slashed n) = .ok (.found [[0x64]]) := by
    refine resolve_of_check (checkPath_slashed short) ?_
    rw [pieces]
    exact (@Step.enter shallow .keep _ _ [] _ _ look rfl).arrives Ends.arrived.arrives
  exact look_of_resolve resolved there

theorem read_of_checkPath {path : PathText} {e : FileError} (refused : checkPath path = .error e) :
    files.read path = .error e := by
  unfold read stat look resolve
  simp only [refused]

/-- Behind as many slashes as fit in a path there is no room for a name. -/
theorem collect_slashed {n : Nat} (full : n + 1 = pathLimit) :
    shallow.collect false (slashed n) = .failed (.file .nameTooLong) := by
  have there : shallow.node? [[0x64]] = some (.dir [([0x66], .file [1])]) := rfl
  have looked := lstat_slashed (Nat.lt_of_succ_le (Nat.le_of_eq full)) there
  have ordered : Entries.inOrder [([0x66], .file [1])] = [([0x66], .file [1])] :=
    List.mergeSort_singleton _
  have text : relativePath ([] ++ [[0x66]]) = .ok "f" := by cbv
  have refused : checkPath ((slashed n).push [0x66]) = .error .nameTooLong := by
    have longer := PathText.length_push (slashed n) [0x66]
    have length : (slashed n).length = pathLimit := by
      simpa [slashed, Nat.add_comm] using full
    have noNul : 0 ∉ (slashed n).push [0x66] := by
      intro nul
      rcases PathText.mem_push nul with front | cut | name
      · simp [slashed, slash] at front
      · exact absurd cut (by decide)
      · simp at name
    rw [checkPath, if_neg noNul, if_neg (PathText.push_ne_nil (by decide)), if_pos]
    rw [length] at longer
    exact longer
  simp only [collect, walkTree, looked, ordered, gather_other, Findings.empty_andThen]
  rw [walkEntries]
  simp only [gather_file, takeUp, text, read_of_checkPath refused]
  rfl

/-- **Not every directory can be packed.**  A file is refused that lies behind a path that
is not too long itself. -/
theorem not_packs_every_directory :
    ¬ ∀ (files : FileSystem) (directory archive out : PathText) (place : Place)
        (entries : Entries) (there : files.node? place = some (.dir entries)),
        files.WellFormed → files.lstat directory = .ok ⟨place, .dir entries, there⟩ →
        (∀ route ∈ files.fileRoutes place, ∀ name ∈ route, Name.IsText name) →
        Layout.totalSize (files.collect false directory).records < 2 ^ 63 →
        (∃ after, files.writeFile archive [] = .ok after) →
        (files.pack false directory archive).files.IsFree out →
        (∀ route ∈ files.fileRoutes place, (out.extend route).length ≤ pathLimit) →
        ∃ bytes, (files.pack false directory archive).result =
          .ok ⟨(files.fileRoutes place).ncard, bytes⟩ := by
  intro packs
  have there : shallow.node? [[0x64]] = some (.dir [([0x66], .file [1])]) := rfl
  have routes : ∀ route ∈ shallow.fileRoutes [[0x64]], route = [[0x66]] := by
    rintro (_ | ⟨first, rest⟩) ⟨data, shown⟩
    · cases shown
    · rw [label?_eq_file_iff, node?_append, there] at shown
      obtain ⟨child, member, found⟩ := Node.exists_of_descend shown
      obtain ⟨rfl, rfl⟩ := Prod.mk.inj (List.mem_singleton.mp member)
      cases rest with
      | nil => rfl
      | cons second rest => simp [Node.descend] at found
  -- as many slashes as a path has room for
  obtain ⟨n, full⟩ : ∃ n, n + 1 = pathLimit := ⟨4094, rfl⟩
  have collected := collect_slashed full
  have stopped : (shallow.collect false (slashed n)).failure = some (.file .nameTooLong) := by
    rw [collected]
    rfl
  obtain ⟨unchanged, refused⟩ := pack_of_failure stopped [0x61]
  have free : shallow.IsFree [0x6F] := .of_name (by decide) rfl
  have small : Layout.totalSize (shallow.collect false (slashed n)).records < 2 ^ 63 := by
    rw [collected]
    decide
  have texts : ∀ route ∈ shallow.fileRoutes [[0x64]], ∀ name ∈ route, Name.IsText name := by
    rintro route member name inside
    obtain rfl := routes route member
    exact ⟨"f", (List.mem_singleton.mp inside).symm⟩
  have short : ∀ route ∈ shallow.fileRoutes [[0x64]],
      (PathText.extend [0x6F] route).length ≤ pathLimit := by
    rintro route member
    obtain rfl := routes route member
    decide
  have writable : ∃ after, shallow.writeFile [0x61] [] = .ok after := ⟨_, by cbv⟩
  rw [← unchanged] at free
  obtain ⟨bytes, packed⟩ := packs shallow (slashed n) [0x61] [0x6F] _ _ there shallow_wellFormed
    (lstat_slashed (Nat.lt_of_succ_le (Nat.le_of_eq full)) there) texts small writable free short
  rw [refused] at packed
  cases packed

end FlatArchive.FileSystem
