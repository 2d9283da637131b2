import FlatArchive.Proofs.Reader.Contents

/-!
# Buffers with the same front

Reading looks at a buffer in three ways: at the header and the rows, at the block
that a row points to, and at the length of the whole.  The header and the rows
stand at the front, one after the other, so two buffers with the same front show
the same fields and the same rows (`SameFront.row_eq`), whatever their lengths.

A row does not say more about a buffer than the block that it points to.  It
stands for the same record wherever it finds the same block
(`Row.Denotes.of_block_eq`).
-/

namespace FlatArchive

/-- The buffers begin with the same `stop` bytes. -/
def Bytes.SameFront (buffer changed : Bytes) (stop : Nat) : Prop :=
  changed.take stop = buffer.take stop

namespace Bytes.SameFront

variable {buffer changed : Bytes} {stop : Nat}

/-- To have the same front is a relation between equals. -/
theorem symm (same : buffer.SameFront changed stop) : changed.SameFront buffer stop :=
  Eq.symm same

/-- Slices within the front are the same. -/
theorem slice_eq (same : buffer.SameFront changed stop) {start length : Nat}
    (inside : start + length ≤ stop) : changed.slice start length = buffer.slice start length := by
  have front : changed.slice 0 stop = buffer.slice 0 stop := same
  rw [← Nat.zero_add start, ← slice_slice changed _ _ _ _ inside, front,
    slice_slice _ _ _ _ _ inside]

/-- Numbers within the front are the same. -/
theorem signedAt_eq (same : buffer.SameFront changed stop) {place : Nat}
    (inside : place + 8 ≤ stop) : changed.signedAt place = buffer.signedAt place := by
  rw [signedAt, signedAt, same.slice_eq inside]

/-- The mark is the same if the header is within the front. -/
theorem magic_eq (same : buffer.SameFront changed stop) (header : 24 ≤ stop) :
    changed.slice 0 8 = buffer.slice 0 8 :=
  same.slice_eq (by omega)

theorem indexCount_eq (same : buffer.SameFront changed stop) (header : 24 ≤ stop) :
    changed.indexCount = buffer.indexCount :=
  same.signedAt_eq (by omega)

theorem totalSize_eq (same : buffer.SameFront changed stop) (header : 24 ≤ stop) :
    changed.totalSize = buffer.totalSize :=
  same.signedAt_eq (by omega)

/-- Rows within the front are the same. -/
theorem row_eq (same : buffer.SameFront changed stop) {i : Nat}
    (inside : tableEnd (i + 1) ≤ stop) : changed.row i = buffer.row i := by
  have width : tableEnd (i + 1) = tableEnd i + 36 := rfl
  rw [Bytes.row, Bytes.row, same.slice_eq (by omega), same.signedAt_eq (by omega),
    same.signedAt_eq (by omega), same.signedAt_eq (by omega)]

/-- A buffer with the same header opens if it is long enough. -/
theorem opens (same : buffer.SameFront changed stop) (header : 24 ≤ stop)
    (opens : buffer.Opens) (table : 24 + 36 * buffer.indexCount ≤ changed.length)
    (declared : buffer.totalSize ≤ changed.length) : changed.Opens := by
  have counted := opens.indexCount_nonneg
  rw [← same.indexCount_eq header] at table counted
  rw [← same.totalSize_eq header] at declared
  refine ⟨by omega, ?_, counted, table, ?_, declared⟩
  · rw [same.magic_eq header]
    exact opens.magic
  · rw [same.totalSize_eq header]
    exact opens.totalSize_nonneg

end Bytes.SameFront

/-- A row stands for the same record in every buffer in which its block is the same. -/
theorem Row.Denotes.of_block_eq {row : Row} {buffer changed : Bytes} {record : FileRecord}
    (denotes : row.Denotes buffer record) (inBounds : row.InBounds changed.length)
    (block : row.block changed = row.block buffer) : row.Denotes changed record where
  inBounds := inBounds
  digest := by
    rw [block]
    exact denotes.digest
  path := by
    rw [Row.pathBytes, block]
    exact denotes.path
  data := by
    rw [Row.content, block]
    exact denotes.data
  size := denotes.size

/-- The same block is reported in the same way. -/
theorem Row.Defect.of_block_eq {row : Row} {buffer changed : Bytes} {index : Nat}
    {e : ArchiveError} (defect : row.Defect buffer index e)
    (inside : row.InBounds buffer.length) (inBounds : row.InBounds changed.length)
    (block : row.block changed = row.block buffer) : row.Defect changed index e := by
  cases defect with
  | outOfBounds outside => exact absurd inside outside
  | digest _ differs =>
      rw [← block] at differs ⊢
      exact .digest inBounds differs
  | path _ digest noText cause told =>
      rw [Row.pathBytes, ← block] at noText told
      rw [← block] at digest
      exact .path inBounds digest noText cause told

end FlatArchive
