import FlatArchive.Proofs.FileSystem.Requests
import FlatArchive.Proofs.Layout.RoundTrip
import FlatArchive.Transfer.Pack

/-!
# Unpacking is decoding and then extracting

Unpacking looks at the entries of an archive as they lie in its bytes and writes them one
by one; decoding makes records of them, and records can be extracted.  The two ways come to
the same on every archive file and every tree (`unpack_eq`): what is wrong with an archive
is found before the first change, and an archive that is in order is extracted as its
records would be, up to the same error if there is one.
-/

namespace FlatArchive

/-- The error for bytes that are no archive is about the bytes, and not about the medium. -/
theorem IoError.ofArchive_of_decode {bytes : Bytes} {e : ArchiveError}
    (refused : decode bytes = .error e) : IoError.ofArchive e = .archive e := by
  have first : bytes.FirstDefect e := ((decode_decides bytes).error_iff e).mp refused
  cases e with
  | io kind text => exact absurd rfl (first.ne_io kind text)
  | invalidMagic | truncated | negativeIndexCount | sizeMismatch | entryOutOfBounds
  | checksumMismatch | invalidPath => rfl

/-- Bytes decode if they open as an archive whose entries are all in order. -/
theorem decode_eq_ok_iff_entries {bytes : Bytes} {records : List FileRecord} :
    decode bytes = .ok records ↔
      ∃ reader entries, Reader.ofBytes bytes = .ok reader ∧
        reader.entries = .ok entries ∧ entries.map Entry.toRecord = records := by
  unfold decode
  cases opened : Reader.ofBytes bytes with
  | error e => simp
  | ok reader =>
      cases listed : reader.entries with
      | error e => simp [Except.map, listed]
      | ok entries => simp [Except.map, listed]

/-- Bytes are refused if they do not open as an archive, or else for one of the entries. -/
theorem decode_eq_error_iff_entries {bytes : Bytes} {e : ArchiveError} :
    decode bytes = .error e ↔
      Reader.ofBytes bytes = .error e ∨
        ∃ reader, Reader.ofBytes bytes = .ok reader ∧ reader.entries = .error e := by
  unfold decode
  cases opened : Reader.ofBytes bytes with
  | error e => simp
  | ok reader =>
      cases listed : reader.entries with
      | error e => simp [Except.map, listed]
      | ok entries => simp [Except.map, listed]

namespace FileSystem

variable {files : FileSystem} {archive destination : PathText} {bytes : Bytes}
  {records : List FileRecord}

/-- What is written depends on the paths and the contents, in whatever form they come. -/
theorem extractEach_map {α β : Type} (files : FileSystem) (destination : PathText)
    (path : α → String) (data : α → Bytes) (form : β → α) (items : List β) :
    files.extractEach destination path data (items.map form) =
      files.extractEach destination (fun item => path (form item))
        (fun item => data (form item)) items := by
  induction items generalizing files with
  | nil => rfl
  | cons item rest ih => simp only [List.map_cons, extractEach, ih]

/-- From bytes that are no archive nothing is extracted. -/
theorem unpack_of_decode_error {e : ArchiveError} (read : files.read archive = .ok bytes)
    (refused : decode bytes = .error e) (destination : PathText) :
    (files.unpack archive destination).files = files ∧
      (files.unpack archive destination).result = .error (.archive e) := by
  have same := IoError.ofArchive_of_decode refused
  unfold unpack
  rcases decode_eq_error_iff_entries.mp refused with opened | ⟨reader, opened, listed⟩
  · simp only [read, opened, same, and_self]
  · simp only [read, opened, listed, same, and_self]

/-- An archive that is in order is extracted as its records are. -/
theorem unpack_of_decode_ok (read : files.read archive = .ok bytes)
    (decoded : decode bytes = .ok records) :
    (files.unpack archive destination).files =
        (files.extractAll destination records).files ∧
      (files.unpack archive destination).result =
        (files.extractAll destination records).result.map fun _ => records.length := by
  obtain ⟨reader, entries, opened, listed, rfl⟩ := decode_eq_ok_iff_entries.mp decoded
  unfold unpack extractAll
  simp only [read, opened, listed]
  cases made : files.createDirAll destination with
  | mk middle result =>
      cases result with
      | error e => exact ⟨rfl, rfl⟩
      | ok =>
          simp only [extractEach_map, List.length_map]
          cases ended : (middle.extractEach destination Entry.path Entry.data entries).result with
          | error e => simp [ended, Entry.toRecord, FileRecord.ofFile, Except.map]
          | ok => simp [ended, Entry.toRecord, FileRecord.ofFile, Except.map]

/-- **Unpacking is decoding and then extracting**, whatever the bytes and the tree. -/
theorem unpack_eq (read : files.read archive = .ok bytes) (destination : PathText) :
    (∀ e, decode bytes = .error e →
      (files.unpack archive destination).files = files ∧
        (files.unpack archive destination).result = .error (IoError.ofArchive e) ∧
        (IoError.ofArchive e).kind = .invalidData ∧
        (IoError.ofArchive e).message = e.message) ∧
      ∀ records, decode bytes = .ok records →
        (files.unpack archive destination).files =
            (files.extractAll destination records).files ∧
          (files.unpack archive destination).result =
            (files.extractAll destination records).result.map fun _ => records.length := by
  constructor
  · intro e refused
    obtain ⟨unchanged, reported⟩ := unpack_of_decode_error read refused destination
    rw [IoError.ofArchive_of_decode refused]
    exact ⟨unchanged, reported, rfl, rfl⟩
  · intro records decoded
    exact unpack_of_decode_ok read decoded

/-- An archive of the files `x` and `y`. -/
def goodArchive : Bytes :=
  Layout.encode [.ofFile "x" [1], .ofFile "y" [2]]

/-- The same archive with another byte at its end. -/
def damagedArchive : Bytes :=
  goodArchive.dropLast ++ [3]

/-- An archive of a file `x` and of one that lies beside the directory. -/
def escapingArchive : Bytes :=
  Layout.encode [.ofFile "x" [1], .ofFile "../y" [2]]

/-- The three archives as files `a`, `b` and `c`. -/
def threeArchives : FileSystem where
  entries := [([0x61], .file damagedArchive), ([0x62], .file goodArchive),
    ([0x63], .file escapingArchive)]

theorem read_damagedArchive : threeArchives.read [0x61] = .ok damagedArchive :=
  read_name (by decide) rfl

theorem read_goodArchive : threeArchives.read [0x62] = .ok goodArchive :=
  read_name (by decide) rfl

theorem read_escapingArchive : threeArchives.read [0x63] = .ok escapingArchive :=
  read_name (by decide) rfl

theorem decode_damagedArchive :
    decode damagedArchive = .error (.checksumMismatch 1 193432175 193432176) := by
  decide +kernel

theorem decode_goodArchive : decode goodArchive = .ok [.ofFile "x" [1], .ofFile "y" [2]] := by
  decide +kernel

theorem decode_escapingArchive :
    decode escapingArchive = .ok [.ofFile "x" [1], .ofFile "../y" [2]] := by
  decide +kernel

/-- Nothing is extracted from the damaged archive, although its first entry is in order; both
files come from the good one; and the one that was written before the bad path stays. -/
theorem unpack_eq_threeArchives :
    (threeArchives.read [0x61] = .ok damagedArchive ∧
        decode damagedArchive = .error (.checksumMismatch 1 193432175 193432176) ∧
        (threeArchives.unpack [0x61] [0x6F]).files = threeArchives ∧
        (threeArchives.unpack [0x61] [0x6F]).result =
          .error (.archive (.checksumMismatch 1 193432175 193432176))) ∧
      (threeArchives.read [0x62] = .ok goodArchive ∧
        decode goodArchive = .ok [.ofFile "x" [1], .ofFile "y" [2]] ∧
        (threeArchives.unpack [0x62] [0x6F]).files.node? [[0x6F]] =
          some (.dir [([0x78], .file [1]), ([0x79], .file [2])]) ∧
        (threeArchives.unpack [0x62] [0x6F]).result = .ok 2) ∧
      threeArchives.read [0x63] = .ok escapingArchive ∧
        decode escapingArchive = .ok [.ofFile "x" [1], .ofFile "../y" [2]] ∧
        (threeArchives.unpack [0x63] [0x6F]).files.node? [[0x6F]] =
          some (.dir [([0x78], .file [1])]) ∧
        (threeArchives.unpack [0x63] [0x6F]).result = .error (.pathEscapes "../y") := by
  obtain ⟨unchanged, refused, -⟩ :=
    (unpack_eq read_damagedArchive [0x6F]).1 _ decode_damagedArchive
  obtain ⟨extracted, ended⟩ := (unpack_eq read_goodArchive [0x6F]).2 _ decode_goodArchive
  obtain ⟨started, stopped⟩ := (unpack_eq read_escapingArchive [0x6F]).2 _ decode_escapingArchive
  refine ⟨⟨read_damagedArchive, decode_damagedArchive, unchanged, refused⟩,
    ⟨read_goodArchive, decode_goodArchive, ?_, ?_⟩,
    read_escapingArchive, decode_escapingArchive, ?_, ?_⟩
  · rw [extracted]
    cbv
  · rw [ended]
    cbv
  · rw [started]
    cbv
  · rw [stopped]
    cbv

end FileSystem

end FlatArchive
