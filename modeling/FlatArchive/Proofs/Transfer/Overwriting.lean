import FlatArchive.Proofs.Transfer.Extraction
import Mathlib

/-!
# Extracting over what is there

The destination may be a directory with things in it, and several records may mean one place,
each with a path of its own.  As long as no place would have to be both a file and a directory,
for the records or for the tree, everything is written, and what is there then is told by one
record for each place, the last (`extractAll_overwrites`).  Records with different places can
therefore change their order.
-/

namespace FlatArchive.FileSystem

open FileRecord

variable {files before after : FileSystem} {destination : PathText} {home place : Place}
  {records : List FileRecord}

/-- If a path leads to a directory, nothing below it is in the way of files at some places. -/
structure IsUnobstructed (files : FileSystem) (path : PathText) (all : List Place) : Prop where
  unlinked : ∀ home, files.LeadsTo path.pieces home → ∀ below target, below ≠ [] →
    files.label? (home ++ below) ≠ some (.link target)
  notDir : ∀ home, files.LeadsTo path.pieces home → ∀ names ∈ all,
    files.label? (home ++ names) ≠ some .dir
  notFile : ∀ home, files.LeadsTo path.pieces home → ∀ names ∈ all, ∀ front data,
    front <+: names → front ≠ names → files.label? (home ++ front) ≠ some (.file data)

/-- What a tree has become: files of records below `home`, the last record for each place;
directories on the way to `home` and to these files; and all else as it was. -/
structure Overwritten (before after : FileSystem) (home : Place) (records : List FileRecord) :
    Prop where
  file : ∀ names ∈ targets records, ∃ record, (meaning records names).getLast? = some record ∧
    after.label? (home ++ names) = some (.file record.data)
  dir : ∀ place, (place <+: home ∨
      ∃ names ∈ targets records, place <+: home ++ names ∧ place ≠ home ++ names) →
    after.label? place = some .dir
  unchanged : ∀ place, ¬ place <+: home → (∀ names ∈ targets records, ¬ place <+: home ++ names) →
    after.label? place = before.label? place

theorem label?_dir_of_prefix (here : files.label? home = some .dir) (above : place <+: home) :
    files.label? place = some .dir := by
  obtain ⟨below, rfl⟩ := above
  by_cases lower : below = []
  · rwa [lower, List.append_nil] at here
  · exact label?_dir_of_below (by rw [here]; simp) lower

/-- What has been made on the way to a directory, and what written below it. -/
theorem Written.overwritten {middle : FileSystem} {upper : Place} {missing : List Name}
    (written : Written middle after (upper ++ missing) records)
    (opened : before.Opened middle upper missing)
    (here : after.label? (upper ++ missing) = some .dir) :
    Overwritten before after (upper ++ missing) records where
  file names meant := by
    obtain ⟨last, isLast⟩ := exists_last meant
    exact ⟨last, isLast, written.file names last isLast⟩
  dir := by
    rintro place (above | ⟨names, meant, within, proper⟩)
    · exact label?_dir_of_prefix here above
    · rcases List.prefix_or_prefix_of_prefix within (List.prefix_append _ names) with above | below
      · exact label?_dir_of_prefix here above
      · obtain ⟨front, rfl⟩ := below
        exact written.dir names meant front ((List.prefix_append_right_inj _).mp within) (by
          rintro rfl
          exact proper rfl)
  unchanged place aside beside := by
    rw [written.rest place fun names meant on => beside names meant on.2,
      (opened place).2 fun on => aside on.2]

/-- Below a destination that is seen to there is room, if nothing was in the way before. -/
theorem IsUnobstructed.hasRoom {middle : FileSystem} {all : List Place} {upper : Place}
    {front missing : List Name} (clear : files.IsUnobstructed destination all)
    (nonempty : ∀ names ∈ all, names ≠ []) (cut : destination.pieces = front ++ missing)
    (leads : files.LeadsTo front upper) (isMissing : files.IsMissing upper missing)
    (opened : files.Opened middle upper missing) : middle.HasRoom (upper ++ missing) all := by
  have here : middle.label? (upper ++ missing) = some .dir :=
    (opened _).1 (onTheWay_self upper missing)
  -- either the destination was there, or nothing below it
  have cases : ∀ below, below ≠ [] → middle.label? (upper ++ missing ++ below) = none ∨
      files.LeadsTo destination.pieces (upper ++ missing) ∧
        middle.label? (upper ++ missing ++ below) = files.label? (upper ++ missing ++ below) := by
    intro below lower
    rw [(opened _).2 (not_onTheWay_below lower)]
    by_cases there : missing = []
    · subst there
      rw [List.append_nil] at cut ⊢
      exact .inr ⟨cut ▸ leads, rfl⟩
    · rw [List.append_assoc]
      exact .inl (isMissing.label? there (List.prefix_append _ _))
  refine ⟨fun names member => ?_, fun names member above prefixed proper => ?_⟩
  · rcases cases names (nonempty names member) with absent | ⟨leads, same⟩
    · exact .inl absent
    · rw [same]
      cases shown : files.label? (upper ++ missing ++ names) with
      | none => exact .inl rfl
      | some label =>
          cases label with
          | file data => exact .inr ⟨data, rfl⟩
          | link target =>
              exact absurd shown (clear.unlinked _ leads names target (nonempty names member))
          | dir => exact absurd shown (clear.notDir _ leads names member)
  · by_cases top : above = []
    · exact .inr (by simpa [top] using here)
    · rcases cases above top with absent | ⟨leads, same⟩
      · exact .inl absent
      · rw [same]
        cases shown : files.label? (upper ++ missing ++ above) with
        | none => exact .inl rfl
        | some label =>
            cases label with
            | file data =>
                exact absurd shown (clear.notFile _ leads names member above data prefixed proper)
            | link target => exact absurd shown (clear.unlinked _ leads above target top)
            | dir => exact .inr rfl

theorem HasRoom.mono {all fewer : List Place} (room : files.HasRoom home all)
    (subset : ∀ names ∈ fewer, names ∈ all) : files.HasRoom home fewer :=
  ⟨fun names member => room.file names (subset names member),
    fun names member => room.above names (subset names member)⟩

/-- **Extraction over what is there** writes each place as the last record says that means it,
makes the directories that were missing, and changes nothing else; records with different
places may change their order. -/
theorem extractAll_overwrites (plain : destination.IsPlain)
    (makeable : (files.createDirAll destination).2 = .ok ())
    (accepted : ∀ record ∈ records, ∃ names, record.IsAccepted destination names)
    (apart : ∀ names ∈ targets records, ∀ others ∈ targets records,
      names <+: others → names = others)
    (clear : files.IsUnobstructed destination (targets records)) :
    (files.extractAll destination records).result = .ok () ∧
      (∃ home, (files.extractAll destination records).files.LeadsTo destination.pieces home ∧
        Overwritten files (files.extractAll destination records).files home records) ∧
      ∀ reordered : List FileRecord, reordered.Perm records →
        (∀ names, meaning reordered names = meaning records names) →
        (files.extractAll destination reordered).result = .ok () ∧
          (files.extractAll destination reordered).files.label? =
            (files.extractAll destination records).files.label? := by
  obtain ⟨middle, made⟩ : ∃ middle, files.createDirAll destination = (middle, .ok ()) :=
    ⟨_, Prod.ext rfl makeable⟩
  obtain ⟨noNul, -, front, missing, upper, cut, leads, isMissing, opened, there⟩ :=
    opened_of_createDirAll made plain
  have nonempty : ∀ names ∈ targets records, names ≠ [] := by
    intro names meant
    obtain ⟨record, -, target⟩ := mem_targets.mp meant
    exact (targetNames_eq_ok_iff.mp (target?_eq_some_iff.mp target)).2.2
  have room := clear.hasRoom nonempty cut leads isMissing opened
  obtain ⟨result, still, written⟩ :=
    extractAll_written plain noNul made there room apart accepted
  refine ⟨result, ⟨_, still, written.overwritten opened still.label?_home⟩,
    fun reordered permuted same => ?_⟩
  -- The other order means the same places, so the same two facts hold of it.
  have meant : ∀ names ∈ targets reordered, names ∈ targets records := fun names member =>
    (permuted.filterMap target?).mem_iff.mp member
  obtain ⟨result', -, written'⟩ := extractAll_written plain noNul made there (room.mono meant)
    (fun names member others member' =>
      apart names (meant names member) others (meant others member'))
    fun record member => accepted record (permuted.mem_iff.mp member)
  exact ⟨result', written.label?_eq written' same⟩

/-- A directory `o` with two files, the first of which is written to. -/
def furnished : FileSystem where
  entries := [([0x6F], .dir [([0x61], .file [9, 9, 9]), ([0x6B], .file [7])])]

theorem leadsTo_furnished : furnished.LeadsTo (PathText.pieces [0x6F]) [[0x6F]] :=
  leadsTo_of_resolve (by cbv : furnished.resolve .follow [0x6F] = .ok (.found [[0x6F]])) rfl

theorem furnished_isUnobstructed :
    furnished.IsUnobstructed [0x6F] [[[0x61]], [[0x62], [0x63]]] := by
  have shown : ∀ below label, below ≠ [] → furnished.label? ([[0x6F]] ++ below) = some label →
      below ∈ [[[0x61]], [[0x6B]]] ∧ ∃ data, label = .file data := by
    intro below label lower shown
    obtain ⟨node, found, rfl⟩ := Option.map_eq_some_iff.mp shown
    rw [node?_append] at found
    obtain ⟨directory, here, found⟩ := Option.bind_eq_some_iff.mp found
    obtain rfl := Option.some.inj here
    obtain ⟨name, rest, rfl⟩ := List.exists_cons_of_ne_nil lower
    obtain ⟨child, member, found⟩ := Node.exists_of_descend found
    simp only [List.mem_cons, List.not_mem_nil, or_false, Prod.mk.injEq] at member
    rcases member with ⟨rfl, rfl⟩ | ⟨rfl, rfl⟩
    · cases rest with
      | nil => exact ⟨by decide, _, by rw [← Option.some.inj found]; rfl⟩
      | cons => simp [Node.descend] at found
    · cases rest with
      | nil => exact ⟨by decide, _, by rw [← Option.some.inj found]; rfl⟩
      | cons => simp [Node.descend] at found
  have targets : ∀ names ∈ [[[0x61]], [[0x62], [0x63]]], names ≠ [] ∧
      ∀ front ∈ List.inits (α := Name) names, front ≠ names → front ∉ [[[0x61]], [[0x6B]]] := by
    decide
  refine ⟨fun home leads below target lower isLink => ?_, fun home leads names member isDir => ?_,
    fun home leads names member front data prefixed proper isFile => ?_⟩
  · obtain rfl := leads.unique leadsTo_furnished
    obtain ⟨-, data, isFile⟩ := shown below _ lower isLink
    cases isFile
  · obtain rfl := leads.unique leadsTo_furnished
    obtain ⟨-, data, isFile⟩ := shown names _ (targets names member).1 isDir
    cases isFile
  · obtain rfl := leads.unique leadsTo_furnished
    by_cases top : front = []
    · subst top
      cases isFile
    · exact (targets names member).2 front ((List.mem_inits _ _).mpr prefixed) proper
        (shown front _ top isFile).1

/-- Two records for each of two places. -/
def aliased : List FileRecord :=
  [.ofFile "a" [1, 2], .ofFile "/b//./c" [3], .ofFile "b/c/" [4], .ofFile "./a" [5]]

theorem extractAll_overwrites_aliased :
    let after := (furnished.extractAll [0x6F] aliased).files
    let reordered := [FileRecord.ofFile "/b//./c" [3], .ofFile "a" [1, 2], .ofFile "./a" [5],
      .ofFile "b/c/" [4]]
    (furnished.extractAll [0x6F] aliased).result = .ok () ∧
      after.label? [[0x6F], [0x61]] = some (.file [5]) ∧
      after.label? [[0x6F], [0x62], [0x63]] = some (.file [4]) ∧
      after.label? [[0x6F], [0x6B]] = some (.file [7]) ∧
      (furnished.extractAll [0x6F] reordered).files.label? = after.label? := by
  intro after reordered
  have first : (FileRecord.ofFile "a" [1, 2]).target? = some [[0x61]] := by decide +kernel
  have second : (FileRecord.ofFile "/b//./c" [3]).target? = some [[0x62], [0x63]] := by
    decide +kernel
  have third : (FileRecord.ofFile "b/c/" [4]).target? = some [[0x62], [0x63]] := by decide +kernel
  have fourth : (FileRecord.ofFile "./a" [5]).target? = some [[0x61]] := by decide +kernel
  have meant : targets aliased = [[[0x61]], [[0x62], [0x63]], [[0x62], [0x63]], [[0x61]]] := by
    decide +kernel
  have plain : PathText.IsPlain [0x6F] := by decide
  have makeable : (furnished.createDirAll [0x6F]).2 = .ok () := by cbv
  have accepted : ∀ record ∈ aliased, ∃ names, record.IsAccepted [0x6F] names := by
    simp only [aliased, List.mem_cons, List.not_mem_nil, or_false]
    rintro record (rfl | rfl | rfl | rfl)
    · exact ⟨_, first, by decide, by decide, by decide⟩
    · exact ⟨_, second, by decide, by decide, by decide⟩
    · exact ⟨_, third, by decide, by decide, by decide⟩
    · exact ⟨_, fourth, by decide, by decide, by decide⟩
  have inside : ∀ names ∈ targets aliased, names ∈ [[[0x61]], [[0x62], [0x63]]] := by
    rw [meant]
    decide
  have clear : furnished.IsUnobstructed [0x6F] (targets aliased) :=
    ⟨furnished_isUnobstructed.unlinked,
      fun home leads names member =>
        furnished_isUnobstructed.notDir home leads names (inside names member),
      fun home leads names member =>
        furnished_isUnobstructed.notFile home leads names (inside names member)⟩
  obtain ⟨result, ⟨home, leads, written⟩, order⟩ :=
    extractAll_overwrites plain makeable accepted (by rw [meant]; decide) clear
  have stays : after.LeadsTo (PathText.pieces [0x6F]) [[0x6F]] :=
    leadsTo_furnished.mono (extractAll_effects furnished [0x6F] aliased).keeps
  obtain rfl := leads.unique stays
  obtain ⟨last, isLast, holds⟩ := written.file [[0x61]] (by rw [meant]; decide)
  obtain ⟨lastC, isLastC, holdsC⟩ := written.file [[0x62], [0x63]] (by rw [meant]; decide)
  obtain rfl : .ofFile "./a" [5] = last := by
    simpa [meaning, aliased, first, second, third, fourth] using isLast
  obtain rfl : .ofFile "b/c/" [4] = lastC := by
    simpa [meaning, aliased, first, second, third, fourth] using isLastC
  refine ⟨result, holds, holdsC, ?_, (order reordered (by decide) ?_).2⟩
  · rw [written.unchanged [[0x6F], [0x6B]] (by decide) (by rw [meant]; decide)]
    rfl
  · intro names
    by_cases atFirst : [[0x61]] = names
    · subst atFirst
      simp [meaning, aliased, reordered, first, second, third, fourth]
    · by_cases atSecond : [[0x62], [0x63]] = names
      · subst atSecond
        simp [meaning, aliased, reordered, first, second, third, fourth]
      · simp [meaning, aliased, reordered, first, second, third, fourth, atFirst, atSecond]

end FlatArchive.FileSystem
