import FlatArchive.Proofs.Reader.Opening

/-!
# What an archive holds

`Bytes.Holds` is the language of archives: which buffers are archives, and which
records they hold.  `Bytes.FirstDefect` is its complement with the reason: which
report is the right one on a buffer that is no archive.  Reading realises exactly
this (`decode_decides`).

Both definitions go through the table row by row, and a report on a row requires
only that the rows before it are in order.  What stands in later rows, or in
blocks that no row up to there points to, does not occur in it.
-/

namespace FlatArchive

namespace Bytes

/-- The buffer opens, and its rows stand for the records, in order. -/
structure Holds (buffer : Bytes) (records : List FileRecord) : Prop where
  opens : buffer.Opens
  length_eq : (records.length : Int) = buffer.indexCount
  denotes : ∀ i (inside : i < records.length),
    (buffer.row i).Denotes buffer records[i]

/-- The right report on a buffer that is no archive: that on the header, or else
that on the first row that is not in order. -/
inductive FirstDefect (buffer : Bytes) : ArchiveError → Prop
  | header {e : ArchiveError} (defect : buffer.HeaderDefect e) : FirstDefect buffer e
  | row {e : ArchiveError} (opens : buffer.Opens) (index : Nat)
      (inTable : index < buffer.indexCount)
      (before : ∀ j, j < index → ∃ record, (buffer.row j).Denotes buffer record)
      (defect : (buffer.row index).Defect buffer index e) : FirstDefect buffer e

/-- A buffer in memory is never reported for its medium. -/
theorem FirstDefect.ne_io {buffer : Bytes} {e : ArchiveError}
    (first : buffer.FirstDefect e) : ∀ kind text, e ≠ .io kind text := by
  rintro kind text rfl
  rcases first with ⟨⟨⟩⟩ | ⟨-, -, -, -, ⟨⟩⟩

end Bytes

/-- The entries are those that the single rows give. -/
theorem Reader.entryAt_of_entries {reader : Reader} {entries : List Entry}
    (listed : reader.entries = .ok entries) :
    entries.length = reader.count ∧
      ∀ i (inside : i < entries.length), reader.entryAt i = .ok entries[i] := by
  unfold Reader.entries at listed
  rcases mapM_range_cases reader.entryAt reader.count with ⟨values, ended, length, each⟩
    | ⟨e, failed, -⟩
  · obtain rfl : values = entries := Except.ok.inj (ended.symm.trans listed)
    exact ⟨length, each⟩
  · cases failed.symm.trans listed

/-- Reading goes through the rows of the table and stops at the first report. -/
theorem decode_bytes (reader : Reader) :
    decode reader.bytes =
      (List.range reader.count).mapM fun index =>
        (reader.entryAt index).map Entry.toRecord := by
  have opened : Reader.ofBytes reader.bytes = .ok reader :=
    ((Reader.ofBytes_decides reader.bytes).ok_iff reader).mpr rfl
  rw [decode, opened]
  exact map_mapM _ _ _

theorem decode_of_headerDefect {buffer : Bytes} {e : ArchiveError}
    (defect : buffer.HeaderDefect e) : decode buffer = .error e := by
  rw [decode, ((Reader.ofBytes_decides buffer).error_iff e).mpr defect]

/-- **Reading is described exactly**: it gives the records that the buffer holds,
or reports its first defect. -/
theorem decode_decides (buffer : Bytes) :
    Decides (decode buffer) buffer.Holds buffer.FirstDefect := by
  rcases Reader.ofBytes_cases buffer with ⟨reader, -, rfl⟩ | ⟨e, -, defect⟩
  -- the buffer opens, and its rows decide
  · have rows := Decides.mapM_range (n := reader.count)
      fun i (inTable : i < reader.count) => Reader.entryAt_decides inTable
    rw [← decode_bytes] at rows
    have counted := reader.opens.indexCount_nonneg
    have count := reader.count_eq
    constructor
    · intro records
      rw [rows.ok_iff]
      constructor
      · rintro ⟨length, denotes⟩
        exact ⟨reader.opens, by omega, denotes⟩
      · rintro ⟨-, length, denotes⟩
        exact ⟨by omega, denotes⟩
    · intro e
      rw [rows.error_iff]
      constructor
      · rintro ⟨index, inTable, defect, before⟩
        exact .row reader.opens index (by omega) before defect
      · rintro (defect | ⟨-, index, inTable, before, defect⟩)
        · exact absurd defect reader.opens.not_headerDefect
        · exact ⟨index, by omega, defect, before⟩
  -- the buffer does not open, and its header has decided
  · constructor
    · intro records
      rw [decode_of_headerDefect defect]
      constructor
      · intro same
        cases same
      · intro holds
        exact absurd defect holds.opens.not_headerDefect
    · intro e'
      rw [decode_of_headerDefect defect]
      constructor
      · intro same
        rw [← Except.error.inj same]
        exact .header defect
      · rintro (defect' | ⟨opens, -, -, -, -⟩)
        · rw [defect.unique defect']
        · exact absurd defect opens.not_headerDefect

end FlatArchive
