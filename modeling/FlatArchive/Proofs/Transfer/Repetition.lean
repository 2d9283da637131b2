import FlatArchive.Proofs.FileSystem.Rewriting
import FlatArchive.Proofs.Transfer.Effects
import Mathlib

/-!
# Extracting a second time

An extraction that went to its end has seen to all directories that it needs, and each of its
paths leads to a file.  Nothing that comes later takes that back (`Keeps`).  So when the same
records are extracted once more, no directory is made and each record is written to the place
it was written to before (`extractEach_again`): the second time is a row of writes and nothing
else.  What came of such a row is not changed by it (`Rewrites`), whichever of its places are
the same and whichever were reached through links.
-/

namespace FlatArchive.FileSystem

open Relation

variable {files after : FileSystem} {destination : PathText} {data : Bytes}
  {log : List Log.Line} {writes : List (Place × Bytes)}

/-- Making directories leaves files written. -/
theorem createDirAll_written (files : FileSystem) (path : PathText) (place : Place)
    (data : Bytes) (file : files.HasFile place) (written : files.IsWritten place data) :
    (files.createDirAll path).1.IsWritten place data := by
  suffices kept : ∀ {after}, ReflTransGen (fun before after =>
      ∃ other ∈ path :: path.ancestors, FileSystem.createDir before other = .ok after)
      files after → after.HasFile place ∧ after.IsWritten place data from
    (kept (createDirAll_steps files path)).2
  intro after steps
  induction steps with
  | refl => exact ⟨file, written⟩
  | tail _ step ih =>
      obtain ⟨_, _, made⟩ := step
      exact ⟨ih.1.mono (createDir_keeps made), ih.2.createDir ih.1 made⟩

/-- Directories that are made before a row of writes do not count. -/
theorem Rewrites.createDirAll (path : PathText)
    (rest : Rewrites (files.createDirAll path).1 after writes) : Rewrites files after writes :=
  .of_kept (createDirAll_effects files path [] (by simp)).keeps
    (createDirAll_written files path) rest

/-- **A record that was extracted is extracted again** by writing its file, in every later tree. -/
theorem extractFile_again {text : String}
    (done : files.extractFile destination text data = ⟨after, log, .ok ()⟩) :
    ∃ place, after.HasFile place ∧
      (∀ last writes, Rewrites after last writes → Rewrites files last ((place, data) :: writes)) ∧
      ∀ later, after.Keeps later →
        later.extractFile destination text data = ⟨later.put place (.file data), log, .ok ()⟩ := by
  obtain ⟨names, middle, meant, made, written, rfl⟩ := extractFile_eq_ok_iff.mp done
  have grown := writeFile_keeps written
  obtain ⟨place, rfl, shown, again⟩ := writeFile_again written
  refine ⟨place, ⟨data, shown⟩, fun last writes rest => ?_, fun later keeps => ?_⟩
  · refine .createDirAll (destination.extend names.dropLast) ?_
    rw [made]
    exact .cons ⟨data, shown⟩ grown rest
  · have there := createDirAll_again made (grown.trans keeps)
    exact extractFile_eq_ok_iff.mpr ⟨names, later, meant, there, again later keeps, rfl⟩

/-- **Records that were extracted are extracted again** by a row of writes, and what came of them
is not changed by it. -/
theorem extractEach_again {α : Type} {text : α → String} {content : α → Bytes} {items : List α}
    (done : files.extractEach destination text content items = ⟨after, log, .ok ()⟩) :
    ∃ writes, Rewrites files after writes ∧
      ∀ later, after.Keeps later →
        later.extractEach destination text content items =
          ⟨later.putFiles writes, log, .ok ()⟩ := by
  induction items generalizing files log with
  | nil =>
      obtain ⟨rfl, rfl, -⟩ := Outcome.mk.inj done
      exact ⟨[], .nil files, fun _ _ => rfl⟩
  | cons item rest ih =>
      obtain ⟨middle, first, further, extracted, others, rfl⟩ :=
        extractEach_cons_eq_ok_iff.mp done
      obtain ⟨place, file, before, again⟩ := extractFile_again extracted
      obtain ⟨writes, rewrites, againOthers⟩ := ih others
      refine ⟨_, before after writes rewrites, fun later keeps => ?_⟩
      -- the first file is still there, so writing it keeps what the others need
      have still := ((file.mono rewrites.keeps).mono keeps).put_keeps (content item)
      exact extractEach_cons_eq_ok_iff.mpr ⟨_, first, further,
        again later (rewrites.keeps.trans keeps), againOthers _ (keeps.trans still), rfl⟩

/-- **Extraction is idempotent.**  Where all records were extracted, extracting them again does
the same once more and leaves the tree as it is, whatever links lead through it. -/
theorem extractAll_idempotent (files : FileSystem) (destination : PathText)
    (records : List FileRecord)
    (succeeded : (files.extractAll destination records).result = .ok ()) :
    (files.extractAll destination records).files.extractAll destination records =
      files.extractAll destination records := by
  obtain ⟨after, log, result, done⟩ : ∃ after log result,
      files.extractAll destination records = ⟨after, log, result⟩ := ⟨_, _, _, rfl⟩
  rw [done] at succeeded ⊢
  obtain rfl : result = .ok () := succeeded
  obtain ⟨middle, made, extracted⟩ := extractAll_eq_ok_iff.mp done
  obtain ⟨writes, rewrites, again⟩ := extractEach_again extracted
  refine extractAll_eq_ok_iff.mpr ⟨after, createDirAll_again made rewrites.keeps, ?_⟩
  rw [again after (.refl after), rewrites.again]

/-- A directory `o` with a link `l` to `e`, which is not there yet. -/
def dangling : FileSystem where
  entries := [([0x6F], .dir [([0x6C], .link [0x65])])]

/-- The first record is written through the link, and the second to the same file. -/
theorem extractAll_idempotent_dangling :
    let records := [FileRecord.ofFile "l" [1], FileRecord.ofFile "//./e" [2, 3]]
    let after := (dangling.extractAll [0x6F] records).files
    dangling.label? [[0x6F], [0x65]] = none ∧
      after.label? [[0x6F], [0x65]] = some (.file [2, 3]) ∧
      (after.extractAll [0x6F] records).result = .ok () ∧
      (after.extractAll [0x6F] records).files = after := by
  have first : targetNames "l" = .ok [[0x6C]] := by decide +kernel
  have second : targetNames "//./e" = .ok [[0x65]] := by decide +kernel
  let middle : FileSystem :=
    ⟨[([0x6F], .dir [([0x65], .file [1]), ([0x6C], .link [0x65])])]⟩
  let last : FileSystem :=
    ⟨[([0x6F], .dir [([0x65], .file [2, 3]), ([0x6C], .link [0x65])])]⟩
  have there : dangling.createDirAll [0x6F] = (dangling, .ok ()) := by cbv
  have written : dangling.writeFile [0x6F, slash, 0x6C] [1] = .ok middle := by cbv
  have still : middle.createDirAll [0x6F] = (middle, .ok ()) := by cbv
  have again : middle.writeFile [0x6F, slash, 0x65] [2, 3] = .ok last := by cbv
  have shown : last.label? [[0x6F], [0x65]] = some (.file [2, 3]) := by cbv
  intro records after
  have done : ∃ log, dangling.extractAll [0x6F] records = ⟨last, log, .ok ()⟩ :=
    ⟨_, extractAll_eq_ok_iff.mpr ⟨dangling, there, extractEach_cons_eq_ok_iff.mpr
      ⟨middle, _, _, extractFile_eq_ok_iff.mpr ⟨_, _, first, there, written, rfl⟩,
        extractEach_cons_eq_ok_iff.mpr
          ⟨last, _, _, extractFile_eq_ok_iff.mpr ⟨_, _, second, still, again, rfl⟩, rfl, rfl⟩,
        rfl⟩⟩⟩
  obtain ⟨log, done⟩ := done
  have succeeded : (dangling.extractAll [0x6F] records).result = .ok () := by rw [done]
  have repeated := extractAll_idempotent dangling [0x6F] records succeeded
  refine ⟨rfl, ?_, ?_, ?_⟩
  · change (dangling.extractAll [0x6F] records).files.label? _ = _
    rw [done, shown]
  · rw [repeated, succeeded]
  · rw [repeated]

end FlatArchive.FileSystem
