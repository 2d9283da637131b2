import FlatArchive.Proofs.Transfer.Effects
import Mathlib

/-!
# Where an extraction stops

Records are written one after the other, so extracting a list that is put together from two
is extracting the second after the first (`extractEach_append`).  Whether a path is refused is
known before anything is done for it (`extractFile_refused`), and whatever its first names
are.  So the first record that is refused is where the extraction stops, and what is there
then is what the records before it have left (`extractAll_refused`).
-/

namespace FlatArchive.FileSystem

variable {files after : FileSystem} {destination : PathText} {log : List Log.Line}

/-- Nothing is done for a path that is refused. -/
theorem extractFile_refused {text : String} {e : IoError} (refused : targetNames text = .error e)
    (files : FileSystem) (destination : PathText) (data : Bytes) :
    files.extractFile destination text data = ⟨files, [], .error e⟩ := by
  rw [extractFile, refused]

/-- What comes behind files that were extracted is extracted after them. -/
theorem extractEach_append {α : Type} {text : α → String} {data : α → Bytes} {front : List α}
    (done : files.extractEach destination text data front = ⟨after, log, .ok ()⟩)
    (back : List α) :
    files.extractEach destination text data (front ++ back) =
      let rest := after.extractEach destination text data back
      { rest with log := log ++ rest.log } := by
  induction front generalizing files log with
  | nil =>
      obtain ⟨rfl, rfl, -⟩ := Outcome.mk.inj done
      rfl
  | cons item rest ih =>
      obtain ⟨middle, first, further, extracted, others, rfl⟩ :=
        extractEach_cons_eq_ok_iff.mp done
      rw [List.cons_append, extractEach, extracted]
      simp only [ih others, List.append_assoc]

/-- After the first records were extracted the others are, into the tree that was left. -/
theorem extractAll_append {front : List FileRecord}
    (done : files.extractAll destination front = ⟨after, log, .ok ()⟩) (back : List FileRecord) :
    files.extractAll destination (front ++ back) =
      let rest := after.extractEach destination FileRecord.path FileRecord.data back
      { rest with log := log ++ rest.log } := by
  obtain ⟨middle, made, done⟩ := extractAll_eq_ok_iff.mp done
  rw [extractAll, made]
  exact extractEach_append done back

/-- Records that were extracted were not refused. -/
theorem accepted_of_extractEach {α : Type} {text : α → String} {data : α → Bytes} {items : List α}
    (done : files.extractEach destination text data items = ⟨after, log, .ok ()⟩) :
    ∀ item ∈ items, ∃ target, resolveTarget destination (text item) = .ok target := by
  induction items generalizing files log with
  | nil => simp
  | cons item rest ih =>
      obtain ⟨middle, first, further, extracted, others, -⟩ :=
        extractEach_cons_eq_ok_iff.mp done
      obtain ⟨names, -, meant, -⟩ := extractFile_eq_ok_iff.mp extracted
      exact List.forall_mem_cons.mpr
        ⟨⟨_, resolveTarget_eq_ok_iff.mpr ⟨names, meant, rfl⟩⟩, ih others⟩

/-- An extraction does not go on behind a path that is refused. -/
theorem extractAll_stops {front back : List FileRecord} {record : FileRecord} {e : IoError}
    (done : files.extractAll destination front = ⟨after, log, .ok ()⟩)
    (refused : targetNames record.path = .error e) :
    files.extractAll destination (front ++ record :: back) = ⟨after, log, .error e⟩ := by
  rw [extractAll_append done, extractEach, extractFile_refused refused]
  simp only [List.append_nil]

/-- **An extraction stops before the first record whose path is refused**, and leaves what the
records before it have left: nothing was done for that record, not even for the names at the
front of its path, and nothing for those behind it. -/
theorem extractAll_refused (files : FileSystem) (destination : PathText)
    (records : List FileRecord) (k : Nat) (e : IoError) (inside : k < records.length)
    (refused : resolveTarget destination records[k].path = .error e)
    (done : (files.extractAll destination (records.take k)).result = .ok ()) :
    let before := files.extractAll destination (records.take k)
    files.extractAll destination records = ⟨before.files, before.log, .error e⟩ ∧
      e.kind = .invalidInput ∧
      (.above ∈ PathText.reading (Utf8.encode records[k].path) ∨
        ∀ name, .name name ∉ PathText.reading (Utf8.encode records[k].path)) ∧
      ∀ earlier ∈ records.take k, ∃ target,
        resolveTarget destination earlier.path = .ok target := by
  intro before
  have finished : files.extractAll destination (records.take k) =
      ⟨before.files, before.log, .ok ()⟩ := by rw [← done]
  have meant := resolveTarget_eq_error_iff.mp refused
  have cut : records = records.take k ++ records[k] :: records.drop (k + 1) := by
    rw [List.getElem_cons_drop, List.take_append_drop]
  obtain ⟨middle, -, extracted⟩ := extractAll_eq_ok_iff.mp finished
  refine ⟨?_, kind_of_targetNames meant, targetNames_refused_iff.mp ⟨e, meant⟩,
    accepted_of_extractEach extracted⟩
  rw [cut]
  exact extractAll_stops finished meant

/-- The second path looks harmless up to its last names.  The first record is written, no
directory is made for the second, and the third is not reached. -/
theorem extractAll_refused_midway :
    let files : FileSystem := ⟨[([0x6B], .file [7])]⟩
    let records := [FileRecord.ofFile "a" [1], FileRecord.ofFile "new/dir/../x" [2],
      FileRecord.ofFile "b" [3]]
    let outcome := files.extractAll [0x6F] records
    outcome.files = ⟨[([0x6B], .file [7]), ([0x6F], .dir [([0x61], .file [1])])]⟩ ∧
      outcome.result = .error (.pathEscapes "new/dir/../x") := by
  intro files records outcome
  let made : FileSystem := ⟨[([0x6B], .file [7]), ([0x6F], .dir [])]⟩
  let last : FileSystem := ⟨[([0x6B], .file [7]), ([0x6F], .dir [([0x61], .file [1])])]⟩
  have meant : targetNames "a" = .ok [[0x61]] := by decide +kernel
  have refused : resolveTarget [0x6F] records[1].path = .error (.pathEscapes "new/dir/../x") := by
    decide +kernel
  have first : files.createDirAll [0x6F] = (made, .ok ()) := by cbv
  have there : made.createDirAll [0x6F] = (made, .ok ()) := by cbv
  have written : made.writeFile [0x6F, slash, 0x61] [1] = .ok last := by cbv
  have done : ∃ log, files.extractAll [0x6F] (records.take 1) = ⟨last, log, .ok ()⟩ :=
    ⟨_, extractAll_eq_ok_iff.mpr ⟨made, first, extractEach_cons_eq_ok_iff.mpr
      ⟨last, _, _, extractFile_eq_ok_iff.mpr ⟨_, _, meant, there, written, rfl⟩, rfl, rfl⟩⟩⟩
  obtain ⟨log, done⟩ := done
  have stopped := extractAll_refused files [0x6F] records 1 _ (by decide) refused (by rw [done])
  rw [done] at stopped
  exact ⟨congrArg Outcome.files stopped.1, congrArg Outcome.result stopped.1⟩

end FlatArchive.FileSystem
