import FlatArchive.Proofs.FileSystem.Chains
import FlatArchive.Proofs.FileSystem.WellFormed
import FlatArchive.Proofs.Transfer.Targets
import FlatArchive.Transfer.Pack

/-!
# What an extraction can do to a tree

However an extraction ends, what it did is a row of granted requests (`Effects`), and there
are only two kinds of them: it makes a directory on the way to some names below its
destination, or writes the file that the names mean (`Effect`).  The names come from the
path of a record and are plain.

What it takes that an extraction goes to its end is said once for each of its parts
(`extractFile_eq_ok_iff`, `extractEach_cons_eq_ok_iff`, `extractAll_eq_ok_iff`), so that nothing
else needs to know how they are put together.

Everything that is kept by each of the two is therefore kept by whole extractions, from
records and from archives.  The first such thing is that trees stay well formed
(`extractAll_wellFormed`, `unpack_wellFormed`).
-/

namespace FlatArchive

open Relation

namespace FileSystem

/-- What one granted request of an extraction does. -/
inductive Effect (destination : PathText) : FileSystem → FileSystem → Prop
  | directory {files after : FileSystem} {names : List Name} {path : PathText}
      (plain : ∀ name ∈ names, name.IsPlain)
      (above : path ∈ destination.extend names :: (destination.extend names).ancestors)
      (made : files.createDir path = .ok after) : Effect destination files after
  | file {files after : FileSystem} {names : List Name} {data : Bytes}
      (plain : ∀ name ∈ names, name.IsPlain)
      (written : files.writeFile (destination.extend names) data = .ok after) :
      Effect destination files after

/-- What granted requests do one after the other. -/
abbrev Effects (destination : PathText) : FileSystem → FileSystem → Prop :=
  ReflTransGen (Effect destination)

variable {files : FileSystem} {destination : PathText} {names : List Name}

theorem createDirAll_effects (files : FileSystem) (destination : PathText) (names : List Name)
    (plain : ∀ name ∈ names, name.IsPlain) :
    Effects destination files (files.createDirAll (destination.extend names)).1 :=
  (createDirAll_steps files (destination.extend names)).lift id
    fun _ _ ⟨_, above, made⟩ => .directory plain above made

/-- Whether a file is extracted or refused, what was done are granted requests below the
destination. -/
theorem extractFile_effects (files : FileSystem) (destination : PathText) (text : String)
    (data : Bytes) :
    Effects destination files (files.extractFile destination text data).files := by
  unfold extractFile
  split
  · exact .refl
  · next names meant =>
    have plain := isPlain_of_targetNames meant
    have above := createDirAll_effects files destination names.dropLast
      fun name member => plain name (List.dropLast_subset _ member)
    split
    · next made => rwa [made] at above
    · next made =>
      rw [made] at above
      dsimp only
      split
      · exact above
      · next written => exact above.tail (.file plain written)

/-- The same goes for any list of files, wherever the extraction stops. -/
theorem extractEach_effects {α : Type} (files : FileSystem) (destination : PathText)
    (text : α → String) (data : α → Bytes) (items : List α) :
    Effects destination files (files.extractEach destination text data items).files := by
  induction items generalizing files with
  | nil => exact .refl
  | cons item rest ih =>
      have first := extractFile_effects files destination (text item) (data item)
      rw [extractEach]
      split
      · next stopped => rwa [stopped] at first
      · next middle _ done =>
        rw [done] at first
        exact first.trans (ih middle)

/-- Making the destination, and then writing below it. -/
theorem createThenExtract_effects {α : Type} {middle : FileSystem}
    {result : Except FileError Unit} (made : files.createDirAll destination = (middle, result))
    (text : α → String) (data : α → Bytes) (items : List α) :
    Effects destination files middle ∧
      Effects destination files (middle.extractEach destination text data items).files := by
  have first := createDirAll_effects files destination [] (by simp)
  rw [PathText.extend_nil, made] at first
  exact ⟨first, first.trans (extractEach_effects middle destination text data items)⟩

/-! ## Extractions that were finished -/

section Finished

variable {after : FileSystem} {log : List Log.Line}

/-- What it takes that one file is extracted. -/
theorem extractFile_eq_ok_iff {text : String} {data : Bytes} :
    files.extractFile destination text data = ⟨after, log, .ok ()⟩ ↔
      ∃ names middle, targetNames text = .ok names ∧
        files.createDirAll (destination.extend names.dropLast) = (middle, .ok ()) ∧
        middle.writeFile (destination.extend names) data = .ok after ∧
        [Log.transferred s!"extracted {Utf8.lossy (destination.extend names)}"] = log := by
  constructor
  · intro done
    unfold extractFile at done
    split at done
    · cases done
    · next names meant =>
      split at done
      · cases done
      · next middle made =>
        dsimp only at done
        split at done
        · cases done
        · next written =>
          obtain ⟨rfl, same, -⟩ := Outcome.mk.inj done
          exact ⟨names, middle, meant, made, written, same⟩
  · rintro ⟨names, middle, meant, made, written, rfl⟩
    simp only [extractFile, meant, made, written]

/-- What it takes that files are extracted: the first is, and the others after it. -/
theorem extractEach_cons_eq_ok_iff {α : Type} {text : α → String} {data : α → Bytes} {item : α}
    {rest : List α} :
    files.extractEach destination text data (item :: rest) = ⟨after, log, .ok ()⟩ ↔
      ∃ middle first further,
        files.extractFile destination (text item) (data item) = ⟨middle, first, .ok ()⟩ ∧
        middle.extractEach destination text data rest = ⟨after, further, .ok ()⟩ ∧
        first ++ further = log := by
  constructor
  · intro done
    rw [extractEach] at done
    split at done
    · cases done
    · next middle first extracted =>
      obtain ⟨rfl, same, result⟩ := Outcome.mk.inj done
      refine ⟨middle, first, _, extracted, ?_, same⟩
      rw [← result]
  · rintro ⟨middle, first, further, extracted, others, rfl⟩
    simp only [extractEach, extracted, others]

/-- What it takes that records are extracted: the destination is made, and they are. -/
theorem extractAll_eq_ok_iff {records : List FileRecord} :
    files.extractAll destination records = ⟨after, log, .ok ()⟩ ↔
      ∃ middle, files.createDirAll destination = (middle, .ok ()) ∧
        middle.extractEach destination FileRecord.path FileRecord.data records =
          ⟨after, log, .ok ()⟩ := by
  constructor
  · intro done
    unfold extractAll at done
    split at done
    · cases done
    · next middle made => exact ⟨middle, made, done⟩
  · rintro ⟨middle, made, done⟩
    simp only [extractAll, made, done]

end Finished

/-! ## Whole transfers -/

/-- **Extracting records is a row of granted requests**, whether it succeeds or not. -/
theorem extractAll_effects (files : FileSystem) (destination : PathText)
    (records : List FileRecord) :
    Effects destination files (files.extractAll destination records).files := by
  unfold extractAll
  split
  · next made =>
    exact (createThenExtract_effects made FileRecord.path FileRecord.data records).1
  · next made =>
    exact (createThenExtract_effects made FileRecord.path FileRecord.data records).2

/-- **Unpacking is a row of granted requests**, whatever is in the archive file. -/
theorem unpack_effects (files : FileSystem) (archive destination : PathText) :
    Effects destination files (files.unpack archive destination).files := by
  unfold unpack
  split
  · exact .refl
  · split
    · exact .refl
    · split
      · exact .refl
      · next entries _ =>
        split
        · next made =>
          exact (createThenExtract_effects made Entry.path Entry.data entries).1
        · next made =>
          have effects := (createThenExtract_effects made Entry.path Entry.data entries).2
          dsimp only
          split
          · exact effects
          · exact effects

/-! ## What stays -/

/-- Directories and links stay what they are, and files stay files. -/
theorem Effects.keeps {after : FileSystem} (effects : Effects destination files after) :
    files.Keeps after := by
  induction effects with
  | refl => exact .refl files
  | tail _ effect ih =>
      cases effect with
      | directory _ _ made => exact ih.trans (createDir_keeps made)
      | file _ written => exact ih.trans (writeFile_keeps written)

theorem Effects.wellFormed {after : FileSystem} (effects : Effects destination files after)
    (wellFormed : files.WellFormed) : after.WellFormed := by
  induction effects with
  | refl => exact wellFormed
  | tail _ effect ih =>
      cases effect with
      | directory _ _ made => exact createDir_wellFormed ih made
      | file _ written => exact writeFile_wellFormed ih written

theorem extractAll_wellFormed (wellFormed : files.WellFormed) (destination : PathText)
    (records : List FileRecord) : (files.extractAll destination records).files.WellFormed :=
  (extractAll_effects files destination records).wellFormed wellFormed

theorem unpack_wellFormed (wellFormed : files.WellFormed) (archive destination : PathText) :
    (files.unpack archive destination).files.WellFormed :=
  (unpack_effects files archive destination).wellFormed wellFormed

end FileSystem

end FlatArchive
