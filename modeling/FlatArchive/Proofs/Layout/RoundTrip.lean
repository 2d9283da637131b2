import FlatArchive.Proofs.Layout.Places
import FlatArchive.Proofs.Reader.Contents
import Mathlib

/-!
# Reading gives back what was laid out

Every row of an archive stands for its record (`denotes_encode`), and so the
archive holds the records that went into it (`holds_encode`).  Reading gives
back paths and contents unchanged.  The one thing that does not travel is the
size that was claimed for a record: a record that is read has the size of its
content (`FileRecord.measured`).

Paths need no condition.  The slash in front of a stored path is taken away
exactly once, whether or not the path has slashes of its own, and the row counts
the bytes of a path, not its characters.
-/

namespace FlatArchive

/-- The record with the size of its content. -/
def FileRecord.measured (record : FileRecord) : FileRecord :=
  .ofFile record.path record.data

namespace Layout

variable {records : List FileRecord} {index : Nat}

theorem fitsWords_iff : FitsWords records ↔ totalSize records < 2 ^ 63 := by
  unfold FitsWords
  rw [Int64.toInt_maxValue]
  omega

theorem totalSize_lt_size (fits : FitsWords records) : totalSize records < UInt64.size :=
  lt_trans (fitsWords_iff.mp fits) (by decide)

theorem length_encode_lt_size (fits : FitsWords records) :
    (encode records).length < UInt64.size := by
  rw [length_encode]
  exact totalSize_lt_size fits

theorem block_row_encode (fits : FitsWords records) (inside : index < records.length) :
    ((encode records).row index).block (encode records) = records[index].block := by
  rw [Row.block, row_encode fits inside]
  exact slice_block inside

theorem inBounds_row_encode (fits : FitsWords records) (inside : index < records.length) :
    ((encode records).row index).InBounds (encode records).length := by
  have stop := blockStop_le_totalSize inside
  have path := length_storedPathBytes_le records[index]
  rw [row_encode fits inside, length_encode]
  constructor <;> simp only <;> omega

/-- The entry of a record leads from where its block starts to where the next one does. -/
theorem span?_entryAt (fits : FitsWords records) (inside : index < records.length) :
    (records[index].entryAt (blockStart records index)).span? (encode records).length =
      some ⟨blockStart records index, blockStart records (index + 1)⟩ := by
  have row := row_entryAt fits inside
  have inBounds := inBounds_row_encode fits inside
  rw [row_encode fits inside, ← row] at inBounds
  rw [IndexEntry.span?_of_inBounds inBounds, row, blockStart_succ inside]
  rfl

/-- Content is shorter than the archive, and so a word can count it. -/
theorem toNat_size_measured (fits : FitsWords records) {record : FileRecord}
    (member : record ∈ records) :
    record.measured.size.toNat = record.data.length := by
  obtain ⟨index, inside, rfl⟩ := List.getElem_of_mem member
  have stop := blockStop_le_totalSize inside
  have small := fitsWords_iff.mp fits
  unfold FileRecord.blockLength at stop
  apply UInt64.toNat_ofNat_of_lt'
  unfold UInt64.size
  omega

/-- Row `index` of an archive stands for record `index`. -/
theorem denotes_encode (fits : FitsWords records) (inside : index < records.length) :
    ((encode records).row index).Denotes (encode records) records[index].measured where
  inBounds := inBounds_row_encode fits inside
  digest := by
    rw [block_row_encode fits inside, row_encode fits inside]
  path := by
    refine ⟨records[index].storedPath, ?_, Or.inl rfl⟩
    rw [Row.pathBytes, block_row_encode fits inside, row_encode fits inside]
    exact List.take_left
  data := by
    rw [Row.content, block_row_encode fits inside, row_encode fits inside]
    exact List.drop_left.symm
  size := toNat_size_measured fits (List.getElem_mem inside)

/-- An archive holds the records that went into it. -/
theorem holds_encode (fits : FitsWords records) :
    (encode records).Holds (records.map FileRecord.measured) where
  opens := opens_encode fits
  length_eq := by
    rw [indexCount_encode fits, List.length_map]
  denotes := by
    intro i inside
    rw [List.getElem_map]
    exact denotes_encode fits (by rwa [List.length_map] at inside)

/-- The records that come out are those that went in, measured. -/
theorem decode_encode_eq (fits : FitsWords records) :
    decode (encode records) = .ok (records.map FileRecord.measured) :=
  ((decode_decides _).ok_iff _).mpr (holds_encode fits)

end Layout

/-- **The round trip.**  Reading an archive gives as many records as went into it,
in the same order, with the same paths and contents, and each has the size of its
content. -/
theorem decode_encode (records : List FileRecord)
    (fits : Layout.totalSize records < 2 ^ 63) :
    ∃ decoded, decode (Layout.encode records) = .ok decoded ∧
      decoded.map FileRecord.path = records.map FileRecord.path ∧
      decoded.map FileRecord.data = records.map FileRecord.data ∧
      ∀ record ∈ decoded, record.size.toNat = record.data.length := by
  have words := Layout.fitsWords_iff.mpr fits
  refine ⟨records.map FileRecord.measured, ?_, ?_, ?_, ?_⟩
  · exact ((decode_decides _).ok_iff _).mpr (Layout.holds_encode words)
  · rw [List.map_map]
    rfl
  · rw [List.map_map]
    rfl
  · intro decoded member
    obtain ⟨record, original, rfl⟩ := List.mem_map.mp member
    exact Layout.toNat_size_measured words original

/-- An empty path, a path with a slash of its own that occurs twice and has a letter of
two bytes, a path with a NUL in it, and claimed sizes that are wrong. -/
theorem decode_encode_odd_paths :
    ∃ decoded,
      decode (Layout.encode [⟨"", 5, []⟩, ⟨"/naïve", 0, [0x2F, 0xFF]⟩,
        ⟨"/naïve", 2, [0x00]⟩, ⟨"a\x00b", 1, [0x07]⟩]) = .ok decoded ∧
      decoded.map FileRecord.path = ["", "/naïve", "/naïve", "a\x00b"] ∧
      decoded.map FileRecord.data = [[], [0x2F, 0xFF], [0x00], [0x07]] ∧
      ∀ record ∈ decoded, record.size.toNat = record.data.length :=
  decode_encode _ (by decide)

end FlatArchive
