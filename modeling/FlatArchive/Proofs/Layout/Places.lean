import FlatArchive.Layout.Basic
import FlatArchive.Proofs.Format.Codec
import FlatArchive.Proofs.Reader.Opening

/-!
# Where things lie in an archive

The layout writes a header, a table and blocks, and computes on the way where
each block will lie.  A reader has only the numbers in the table.  This module
says that the two agree: row `i` of an archive is the entry of record `i`
(`row_encode`), the entry gives the place that `blockStart` computes, and there
the block of record `i` is found (`slice_block`).

The archive as a whole has to be shorter than 2 ^ 63 bytes, for otherwise a
number that was computed need not be the number that a signed field holds.
`FitsWords` is this condition; nothing else is asked of the records.
-/

namespace FlatArchive

namespace Layout

/-- All offsets and lengths of the archive are values of signed words. -/
def FitsWords (records : List FileRecord) : Prop :=
  totalSize records ≤ Int64.maxValue.toInt

/-- Where the block of the record in place `index` starts. -/
def blockStart (records : List FileRecord) (index : Nat) : Nat :=
  tableEnd records.length + blocksSize (records.take index)

variable {records : List FileRecord} {index : Nat}

/-- The size of blocks adds up. -/
theorem blocksSize_append (front back : List FileRecord) :
    blocksSize (front ++ back) = blocksSize front + blocksSize back := by
  induction front with
  | nil => simp [blocksSize]
  | cons record rest ih =>
      rw [List.cons_append, blocksSize, ih, blocksSize, Nat.add_assoc]

theorem blocksSize_take_succ (inside : index < records.length) :
    blocksSize (records.take (index + 1)) =
      blocksSize (records.take index) + records[index].blockLength := by
  rw [List.take_succ_eq_append_getElem inside, blocksSize_append]
  rfl

/-- The first blocks take no more than all of them. -/
theorem blocksSize_take_le (records : List FileRecord) (index : Nat) :
    blocksSize (records.take index) ≤ blocksSize records := by
  have whole := blocksSize_append (records.take index) (records.drop index)
  rw [List.take_append_drop] at whole
  omega

/-- The first block starts where the table ends. -/
theorem blockStart_zero (records : List FileRecord) :
    blockStart records 0 = tableEnd records.length :=
  rfl

/-- Behind the last block is the end of the archive. -/
theorem blockStart_length (records : List FileRecord) :
    blockStart records records.length = totalSize records := by
  rw [blockStart, List.take_length, totalSize]

/-- A block ends where the next one starts. -/
theorem blockStart_succ (inside : index < records.length) :
    blockStart records (index + 1) =
      blockStart records index + records[index].blockLength := by
  rw [blockStart, blocksSize_take_succ inside, blockStart, Nat.add_assoc]

/-- A later block does not start earlier. -/
theorem blockStart_mono {i j : Nat} (ordered : i ≤ j) :
    blockStart records i ≤ blockStart records j := by
  have earlier := blocksSize_take_le (records.take j) i
  rw [List.take_take, Nat.min_eq_left ordered] at earlier
  unfold blockStart
  omega

/-- No block starts behind the end of the archive. -/
theorem blockStart_le_totalSize (records : List FileRecord) (index : Nat) :
    blockStart records index ≤ totalSize records := by
  have inside := blocksSize_take_le records index
  unfold blockStart totalSize
  omega

theorem tableEnd_mono {i j : Nat} (ordered : i ≤ j) : tableEnd i ≤ tableEnd j := by
  unfold tableEnd entrySize
  omega

/-- The blocks lie behind the table. -/
theorem tableEnd_length_le_blockStart (records : List FileRecord) (index : Nat) :
    tableEnd records.length ≤ blockStart records index :=
  Nat.le_add_right _ _

/-- The row of a record ends before its block starts. -/
theorem tableEnd_le_blockStart (inside : index < records.length) :
    tableEnd (index + 1) ≤ blockStart records index :=
  Nat.le_trans (tableEnd_mono inside) (tableEnd_length_le_blockStart records index)

/-! ## The table -/

/-- The entry of a record says where its block starts: behind the blocks before it. -/
theorem getElem_entriesFrom :
    ∀ (records : List FileRecord) (offset index : Nat) (inside : index < records.length)
      (inTable : index < (entriesFrom offset records).length),
      (entriesFrom offset records)[index] =
        records[index].entryAt (offset + blocksSize (records.take index)) := by
  intro records
  induction records with
  | nil =>
      intro offset index inside
      exact absurd inside (Nat.not_lt_zero index)
  | cons record rest ih =>
      intro offset index inside inTable
      cases index with
      | zero => rfl
      | succ index =>
          -- the first block comes before all those of the rest
          simp only [entriesFrom, List.getElem_cons_succ, List.take_succ_cons, blocksSize]
          rw [ih (offset + record.blockLength) index (Nat.lt_of_succ_lt_succ inside),
            Nat.add_assoc]

theorem getElem_entries (inside : index < records.length)
    (inTable : index < (entries records).length) :
    (entries records)[index] = records[index].entryAt (blockStart records index) :=
  getElem_entriesFrom records (tableEnd records.length) index inside inTable

/-- The first rows take as many times the size of a row. -/
theorem length_flatMap_toBytes_take (inside : index ≤ records.length) :
    (((entries records).take index).flatMap IndexEntry.toBytes).length =
      entrySize * index := by
  rw [length_flatMap_toBytes, List.length_take, length_entries, Nat.min_eq_left inside]

/-- **In the place of a row there is the entry of its record.** -/
theorem slice_row (inside : index < records.length) :
    (encode records).slice (tableEnd index) entrySize =
      (records[index].entryAt (blockStart records index)).toBytes := by
  have inTable : entrySize * index + entrySize ≤ (table records).length := by
    rw [length_table]
    unfold entrySize
    omega
  have header : tableEnd index = (header records).toBytes.length + entrySize * index := by
    rw [Header.length_toBytes]
    rfl
  rw [encode, header, Bytes.slice_append_right, Bytes.slice_append_left _ _ _ _ inTable]
  have listed : index < (entries records).length := by
    rw [length_entries]
    exact inside
  have row := Bytes.slice_flatMap IndexEntry.toBytes (entries records) index listed
  rw [length_flatMap_toBytes_take (Nat.le_of_lt inside), IndexEntry.length_toBytes,
    getElem_entries inside] at row
  exact row

/-- What is looked up in an archive is the entry of the record. -/
theorem indexEntryAt_encode {reader : Reader} (laidOut : reader.bytes = encode records)
    (inside : index < records.length) :
    reader.indexEntryAt index = records[index].entryAt (blockStart records index) := by
  rw [Reader.indexEntryAt, laidOut, slice_row inside, IndexEntry.ofBytes_toBytes]

/-! ## The blocks -/

/-- **In the place of a block there is the block of its record.** -/
theorem slice_block (inside : index < records.length) :
    (encode records).slice (blockStart records index) records[index].blockLength =
      records[index].block := by
  have front : blockStart records index =
      ((header records).toBytes ++ table records).length +
        blocksSize (records.take index) := by
    rw [List.length_append, Header.length_toBytes, length_table]
    rfl
  have before : ((records.take index).flatMap FileRecord.block).length =
      blocksSize (records.take index) := length_blocks _
  rw [encode, ← List.append_assoc, front, Bytes.slice_append_right, ← before,
    ← FileRecord.length_block]
  exact Bytes.slice_flatMap FileRecord.block records index inside

/-- From where a block starts to where the next one does, there is the block. -/
theorem within_block (inside : index < records.length) :
    (encode records).within ⟨blockStart records index, blockStart records (index + 1)⟩ =
      records[index].block := by
  rw [Bytes.within, blockStart_succ inside, Nat.add_sub_cancel_left]
  exact slice_block inside

/-! ## What the table says -/

/-- What is not more than the whole archive is written in a signed word as it is. -/
theorem toInt_ofNat_of_fits (fits : FitsWords records) {n : Nat}
    (small : n ≤ totalSize records) : (Int64.ofNat n).toInt = n := by
  apply Int64.toInt_ofNat_of_lt
  unfold FitsWords at fits
  rw [Int64.toInt_maxValue] at fits
  omega

/-- No block ends behind the end of the archive. -/
theorem blockStop_le_totalSize (inside : index < records.length) :
    blockStart records index + records[index].blockLength ≤ totalSize records := by
  rw [← blockStart_succ inside]
  exact blockStart_le_totalSize records (index + 1)

/-- The stored path is part of the block. -/
theorem length_storedPathBytes_le (record : FileRecord) :
    record.storedPathBytes.length ≤ record.blockLength := by
  rw [← FileRecord.length_block, FileRecord.block, List.length_append]
  exact Nat.le_add_right _ _

/-- The entry of a record says in words where the layout puts the block. -/
theorem row_entryAt (fits : FitsWords records) (inside : index < records.length) :
    (records[index].entryAt (blockStart records index)).row = {
      checksum := Djb2.checksum records[index].block
      offset := blockStart records index
      length := records[index].blockLength
      pathLength := records[index].storedPathBytes.length } := by
  -- a number that is at most the size of the archive is the value of its word
  have stop := blockStop_le_totalSize inside
  have path := length_storedPathBytes_le records[index]
  rw [IndexEntry.row, FileRecord.checksum_entryAt]
  simp only [FileRecord.entryAt]
  rw [toInt_ofNat_of_fits fits (by omega), toInt_ofNat_of_fits fits (by omega),
    toInt_ofNat_of_fits fits (by omega)]

/-- **Row `index` of an archive** holds the digest of the block of record `index`,
its place and its parts. -/
theorem row_encode (fits : FitsWords records) (inside : index < records.length) :
    (encode records).row index = {
      checksum := Djb2.checksum records[index].block
      offset := blockStart records index
      length := records[index].blockLength
      pathLength := records[index].storedPathBytes.length } := by
  have table : tableEnd (index + 1) ≤ (encode records).length := by
    have behind := tableEnd_le_blockStart inside
    have stop := blockStop_le_totalSize inside
    rw [length_encode]
    omega
  rw [← IndexEntry.row_ofBytes_slice _ _ table, slice_row inside,
    IndexEntry.ofBytes_toBytes, row_entryAt fits inside]

theorem indexCount_encode (fits : FitsWords records) :
    (encode records).indexCount = records.length := by
  have small : records.length ≤ totalSize records := by
    unfold totalSize tableEnd entrySize
    omega
  rw [Bytes.indexCount, Bytes.signedAt, encode, Header.slice_indexCount,
    LittleEndian.signed_ofInt64]
  exact toInt_ofNat_of_fits fits small

/-- The header declares the size of the archive. -/
theorem totalSize_encode (fits : FitsWords records) :
    (encode records).totalSize = totalSize records := by
  rw [Bytes.totalSize, Bytes.signedAt, encode, Header.slice_totalSize,
    LittleEndian.signed_ofInt64]
  exact toInt_ofNat_of_fits fits (Nat.le_refl _)

/-- What was laid out opens, if its size is a word. -/
theorem opens_encode (fits : FitsWords records) : (encode records).Opens := by
  have length := length_encode records
  have count := indexCount_encode fits
  have declared := totalSize_encode fits
  have table : 24 + 36 * records.length ≤ totalSize records :=
    Nat.le_add_right (tableEnd records.length) (blocksSize records)
  refine ⟨by omega, Header.slice_magic _ _, by omega, by omega, by omega, by omega⟩

end Layout

end FlatArchive
