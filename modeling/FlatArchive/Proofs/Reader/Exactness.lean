import FlatArchive.Proofs.Reader.Agreement
import FlatArchive.Proofs.Reader.Machine
import Mathlib

/-!
# Reading is exact

The two main statements on reading, for every buffer whatsoever: the records that
come out are those that the buffer holds, and the report that comes out is that
on its first defect.  Nothing bad is accepted, nothing good is rejected, and of
several defects the one that is reported is fixed.

Both are said of the reader and of the machine.  The machine computes in words,
and so it needs a buffer that a machine can have; the description on the right is
in integers without bounds on both lines.
-/

namespace FlatArchive

variable {buffer : Bytes}

/-- **What is accepted.**  Reading gives records exactly if the buffer opens and
each row of its table stands for the record in its place. -/
theorem decode_eq_ok_iff_holds (small : buffer.length < 2 ^ 63)
    (records : List FileRecord) :
    (decode buffer = .ok records ↔ buffer.Holds records) ∧
      (Machine.decode buffer = .ok (.ok records) ↔ buffer.Holds records) := by
  have exact := (decode_decides buffer).ok_iff records
  refine ⟨exact, ?_⟩
  have word : buffer.length < UInt64.size := lt_trans small (by decide)
  rw [Machine.decode_eq word, Except.ok.injEq]
  exact exact

/-- An archive that no layout makes: its two rows share a block, and that block is the
magic number at the front. -/
def sharedBlock : Bytes :=
  Header.toBytes { indexCount := 2, totalSize := 0 } ++
    (IndexEntry.toBytes {
      checksum := Djb2.checksum Magic.archive.bytes
      offset := 0
      length := 8
      pathLength := 0 } ++
    IndexEntry.toBytes {
      checksum := Djb2.checksum Magic.archive.bytes
      offset := 0
      length := 8
      pathLength := 8 })

theorem holds_sharedBlock :
    sharedBlock.length < 2 ^ 63 ∧
      sharedBlock.Holds [⟨"", 8, Magic.archive.bytes⟩, ⟨"TATIX_AR", 0, []⟩] := by
  have small : sharedBlock.length < 2 ^ 63 := by decide
  refine ⟨small, (decode_eq_ok_iff_holds small _).1.mp ?_⟩
  cbv

/-- **What is reported.**  Reading reports exactly the first defect of the buffer.
The report is never that a medium failed, and it stays the same on every buffer
that agrees with this one below the row that it is about. -/
theorem decode_eq_error_iff_firstDefect (small : buffer.length < 2 ^ 63)
    (e : ArchiveError) :
    (decode buffer = .error e ↔ buffer.FirstDefect e) ∧
      (Machine.decode buffer = .ok (.error e) ↔ buffer.FirstDefect e) ∧
      (decode buffer = .error e →
        (∀ kind text, e ≠ .io kind text) ∧
        ∀ changed, buffer.AgreesBelow changed e.rowsSeen → decode changed = .error e) := by
  have exact := (decode_decides buffer).error_iff e
  refine ⟨exact, ?_, ?_⟩
  · have word : buffer.length < UInt64.size := lt_trans small (by decide)
    rw [Machine.decode_eq word, Except.ok.injEq]
    exact exact
  · intro reported
    have first := exact.mp reported
    refine ⟨first.ne_io, ?_⟩
    intro changed agrees
    exact ((decode_decides changed).error_iff e).mpr (agrees.firstDefect first)

/-- A buffer with two defects: the digest in the first row is wrong, and the second row
starts before the buffer. -/
def twoDefects : Bytes :=
  Header.toBytes { indexCount := 2, totalSize := 96 } ++
    (IndexEntry.toBytes { checksum := 0, offset := 0, length := 8, pathLength := 0 } ++
    IndexEntry.toBytes { checksum := 0, offset := -1, length := 8, pathLength := 8 })

/-- Of the two defects the first is reported, and so it is if the second row changes. -/
theorem firstDefect_twoDefects :
    twoDefects.FirstDefect (.checksumMismatch 0 0 (Djb2.checksum Magic.archive.bytes)) ∧
      decode (twoDefects.set 70 0x00) =
        .error (.checksumMismatch 0 0 (Djb2.checksum Magic.archive.bytes)) := by
  have exact := @decode_eq_error_iff_firstDefect twoDefects (by decide)
    (.checksumMismatch 0 0 (Djb2.checksum Magic.archive.bytes))
  have reported : decode twoDefects =
      .error (.checksumMismatch 0 0 (Djb2.checksum Magic.archive.bytes)) := by
    cbv
  refine ⟨exact.1.mp reported, (exact.2.2 reported).2 _ ?_⟩
  constructor
  · exact List.length_set
  · exact Bytes.slice_set_of_outside _ _ _ _ _ (by decide)
  · intro i below _
    obtain rfl : i = 0 := Nat.lt_one_iff.mp below
    decide

end FlatArchive
