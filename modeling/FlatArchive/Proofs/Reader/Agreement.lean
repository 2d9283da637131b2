import FlatArchive.Proofs.Reader.Front

/-!
# What a verdict depends on

Two buffers agree below a row if they have the same length, the same bytes up to
that row, and the same blocks of the rows up to there.  All else may differ: the
rows behind it, their blocks, and bytes that no row points to.

Locality comes in two steps.  What a row says depends on the bytes of the table
only (`AgreesBelow.row_eq`), and the verdict on it on its block as well
(`AgreesBelow.denotes`, `AgreesBelow.defect`).  A report on row `i` is therefore
the same on all buffers that agree below row `i + 1`
(`AgreesBelow.firstDefect`): what is wrong further on does not change it.
-/

namespace FlatArchive

/-- How many rows of the table a report depends on: those up to the row that it is
about. -/
def ArchiveError.rowsSeen : ArchiveError → Nat
  | .entryOutOfBounds index _ _ _ | .checksumMismatch index _ _ | .invalidPath index _ =>
    index + 1
  | .invalidMagic _ | .truncated _ _ | .negativeIndexCount _ | .sizeMismatch _ _
  | .io _ _ => 0

/-- The buffers have the same length, the same bytes before row `rows`, and the same
blocks of the rows before it. -/
structure Bytes.AgreesBelow (buffer changed : Bytes) (rows : Nat) : Prop where
  length_eq : changed.length = buffer.length
  front : changed.slice 0 (tableEnd rows) = buffer.slice 0 (tableEnd rows)
  blocks : ∀ i, i < rows → (buffer.row i).InBounds buffer.length →
    (buffer.row i).block changed = (buffer.row i).block buffer

namespace Bytes.AgreesBelow

variable {buffer changed : Bytes} {rows : Nat} {e : ArchiveError}

/-! ## The header and the rows -/

/-- Buffers that agree on some rows have the same front, up to the end of those rows. -/
theorem sameFront (agrees : buffer.AgreesBelow changed rows) :
    buffer.SameFront changed (tableEnd rows) :=
  agrees.front

/-- The header is in front of all rows. -/
theorem header_le (rows : Nat) : 24 ≤ tableEnd rows :=
  Nat.le_add_right _ _

theorem magic_eq (agrees : buffer.AgreesBelow changed rows) :
    changed.slice 0 8 = buffer.slice 0 8 :=
  agrees.sameFront.magic_eq (header_le rows)

theorem indexCount_eq (agrees : buffer.AgreesBelow changed rows) :
    changed.indexCount = buffer.indexCount :=
  agrees.sameFront.indexCount_eq (header_le rows)

theorem totalSize_eq (agrees : buffer.AgreesBelow changed rows) :
    changed.totalSize = buffer.totalSize :=
  agrees.sameFront.totalSize_eq (header_le rows)

/-- The rows below the bound are the same. -/
theorem row_eq (agrees : buffer.AgreesBelow changed rows) {i : Nat} (below : i < rows) :
    changed.row i = buffer.row i := by
  apply agrees.sameFront.row_eq
  unfold tableEnd entrySize
  omega

/-! ## Verdicts -/

/-- If one buffer opens, so does the other: lengths are the same too. -/
theorem opens (agrees : buffer.AgreesBelow changed rows) (opens : buffer.Opens) :
    changed.Opens := by
  have table := opens.table_le
  have declared := opens.totalSize_le
  rw [← agrees.length_eq] at table declared
  exact agrees.sameFront.opens (header_le rows) opens table declared

/-- If one buffer does not open, the other has the same report. -/
theorem headerDefect (agrees : buffer.AgreesBelow changed rows)
    (defect : buffer.HeaderDefect e) : changed.HeaderDefect e := by
  cases defect with
  | short short =>
      rw [← agrees.length_eq] at short ⊢
      exact .short short
  | magic header foreign =>
      rw [← agrees.length_eq] at header
      rw [← agrees.magic_eq] at foreign ⊢
      exact .magic header foreign
  | count header magic negative =>
      rw [← agrees.length_eq] at header
      rw [← agrees.magic_eq] at magic
      rw [← agrees.indexCount_eq] at negative ⊢
      exact .count header magic negative
  | table header magic counted short =>
      rw [← agrees.length_eq] at header short ⊢
      rw [← agrees.magic_eq] at magic
      rw [← agrees.indexCount_eq] at counted short ⊢
      exact .table header magic counted short
  | size header magic counted table wrong =>
      rw [← agrees.length_eq] at header table wrong ⊢
      rw [← agrees.magic_eq] at magic
      rw [← agrees.indexCount_eq] at counted table
      rw [← agrees.totalSize_eq] at wrong ⊢
      exact .size header magic counted table wrong

/-- A row below the bound stands for the same record in both buffers. -/
theorem denotes (agrees : buffer.AgreesBelow changed rows) {i : Nat} (below : i < rows)
    {record : FileRecord} (denotes : (buffer.row i).Denotes buffer record) :
    (changed.row i).Denotes changed record := by
  have inBounds := denotes.inBounds
  rw [agrees.row_eq below]
  rw [← agrees.length_eq] at inBounds
  exact denotes.of_block_eq inBounds (agrees.blocks i below denotes.inBounds)

/-- A row below the bound has the same report in both buffers. -/
theorem defect (agrees : buffer.AgreesBelow changed rows) {i : Nat} (below : i < rows)
    (defect : (buffer.row i).Defect buffer i e) :
    (changed.row i).Defect changed i e := by
  rw [agrees.row_eq below]
  by_cases inBounds : (buffer.row i).InBounds buffer.length
  · have block := agrees.blocks i below inBounds
    exact defect.of_block_eq inBounds (by rwa [agrees.length_eq]) block
  · obtain rfl := defect.unique (.outOfBounds inBounds)
    rw [← agrees.length_eq] at inBounds
    exact .outOfBounds inBounds

end Bytes.AgreesBelow

/-- The report on a row is given when that row was seen, and no later one. -/
theorem Row.Defect.rowsSeen_eq {row : Row} {buffer : Bytes} {index : Nat}
    {e : ArchiveError} (defect : row.Defect buffer index e) : e.rowsSeen = index + 1 := by
  cases defect <;> rfl

/-- **A report stands** whatever changes behind the row that it is about. -/
theorem Bytes.AgreesBelow.firstDefect {buffer changed : Bytes} {e : ArchiveError}
    (agrees : buffer.AgreesBelow changed e.rowsSeen) (first : buffer.FirstDefect e) :
    changed.FirstDefect e := by
  rcases first with defect | ⟨opens, index, inTable, before, defect⟩
  · exact .header (agrees.headerDefect defect)
  · rw [defect.rowsSeen_eq] at agrees
    rw [← agrees.indexCount_eq] at inTable
    refine .row (agrees.opens opens) index inTable ?_
      (agrees.defect (Nat.lt_succ_self index) defect)
    intro j earlier
    obtain ⟨record, denotes⟩ := before j earlier
    exact ⟨record, agrees.denotes (Nat.lt_succ_of_lt earlier) denotes⟩

end FlatArchive
