import FlatArchive.Proofs.Layout.RoundTrip
import Mathlib

/-!
# The layout has one form for each archive

Reading leaves some freedom to whoever writes an archive: a declared size may be
less than what there is, reserved words may be anything, a stored path need not
begin with a slash, and blocks may lie wherever there is room for them.  An archive
is canonical if no use was made of this freedom (`Bytes.IsCanonical`).

What is laid out is canonical (`Layout.isCanonical_encode`), and a canonical archive is
what is laid out for the records in it (`Bytes.IsCanonical.encode_eq`).  The second half
puts a buffer together again from what was read: each field of the header and of a row is
fixed by the records and the conditions, a block is the stored path and the content,
and as blocks follow the table and each other up to the end, no byte is left over.
-/

namespace FlatArchive

namespace Bytes

/-- The reserved word of row `index`. -/
def reservedAt (buffer : Bytes) (index : Nat) : UInt32 :=
  LittleEndian.toUInt32 (buffer.slice (tableEnd index + 32) 4)

/-- Where block `index` is due if the first block follows the table, and each other
block the one before it. -/
def due (buffer : Bytes) : (index : Nat) → Int
  | 0 => 24 + 36 * buffer.indexCount
  | index + 1 => buffer.due index + (buffer.row index).length

/-- No use was made of the freedom that reading leaves. -/
structure IsCanonical (buffer : Bytes) : Prop where
  totalSize_eq : buffer.totalSize = buffer.length
  reserved_eq : ∀ i : Nat, i < buffer.indexCount → buffer.reservedAt i = 0
  slash : ∀ i : Nat, i < buffer.indexCount →
    ((buffer.row i).pathBytes buffer).head? = some 0x2F
  offset_eq : ∀ i : Nat, i < buffer.indexCount → (buffer.row i).offset = buffer.due i
  /-- Where the next block would be due, the buffer ends. -/
  stop_eq : buffer.due buffer.indexCount.toNat = buffer.length

/-- The reserved word of a row is the one of the entry that is read from it. -/
theorem reserved_ofBytes_slice (buffer : Bytes) (index : Nat) :
    (IndexEntry.ofBytes (buffer.slice (tableEnd index) entrySize)).reserved =
      buffer.reservedAt index :=
  congrArg LittleEndian.toUInt32 (slice_slice buffer (tableEnd index) entrySize 32 4 (by decide))

/-- Blocks of the right lengths are due where the layout puts them. -/
theorem due_eq_blockStart {buffer : Bytes} {records : List FileRecord}
    (counted : (records.length : Int) = buffer.indexCount)
    (lengths : ∀ i (inside : i < records.length),
      (buffer.row i).length = records[i].blockLength) :
    ∀ i, i ≤ records.length → buffer.due i = Layout.blockStart records i := by
  intro i
  induction i with
  | zero =>
      intro _
      rw [due, ← counted]
      unfold Layout.blockStart tableEnd headerSize entrySize
      simp only [List.take_zero, Layout.blocksSize]
      omega
  | succ i ih =>
      intro inside
      rw [due, ih (Nat.le_of_succ_le inside), lengths i inside,
        Layout.blockStart_succ inside]
      exact (Int.natCast_add _ _).symm

end Bytes

namespace Layout

/-! ## What is laid out is canonical -/

section Encode

variable {records : List FileRecord} {index : Nat}

theorem reservedAt_encode (inside : index < records.length) :
    (encode records).reservedAt index = 0 := by
  rw [← Bytes.reserved_ofBytes_slice, slice_row inside, IndexEntry.ofBytes_toBytes]
  rfl

/-- A row of what is laid out leads to the stored path of its record. -/
theorem pathBytes_row_encode (fits : FitsWords records) (inside : index < records.length) :
    ((encode records).row index).pathBytes (encode records) =
      records[index].storedPathBytes := by
  rw [Row.pathBytes, block_row_encode fits inside, row_encode fits inside]
  exact List.take_left

/-- The blocks of what is laid out are where they are due. -/
theorem due_encode (fits : FitsWords records) (inside : index ≤ records.length) :
    (encode records).due index = blockStart records index := by
  refine Bytes.due_eq_blockStart (indexCount_encode fits).symm ?_ index inside
  intro i inTable
  rw [row_encode fits inTable]

/-- **What is laid out is canonical.** -/
theorem isCanonical_encode (fits : FitsWords records) : (encode records).IsCanonical := by
  have counted := indexCount_encode fits
  have inside : ∀ i : Nat, i < (encode records).indexCount → i < records.length := by
    intro i below
    omega
  constructor
  · rw [totalSize_encode fits, length_encode]
  · intro i below
    exact reservedAt_encode (inside i below)
  · intro i below
    rw [pathBytes_row_encode fits (inside i below), FileRecord.storedPathBytes_eq]
    rfl
  · intro i below
    rw [due_encode fits (Nat.le_of_lt (inside i below)), row_encode fits (inside i below)]
  · rw [counted, Int.toNat_natCast, due_encode fits (Nat.le_refl _), blockStart_length,
      length_encode]

end Encode

end Layout

/-! ## A block is made of what was read from it -/

/-- A text whose first byte is a slash begins with the slash. -/
theorem Utf8.eq_slash_of_head? {stored : String}
    (slash : (encode stored).head? = some 0x2F) : ∃ rest, stored = "/" ++ rest := by
  rw [encode] at slash
  cases chars : stored.toList with
  | nil =>
      rw [chars] at slash
      cases slash
  | cons c rest =>
      rw [chars, List.flatMap_cons] at slash
      -- the first character is read from the first byte
      obtain ⟨tail, bytes⟩ := List.head?_eq_some_iff.mp slash
      have scanned := scan_encodeChar c (rest.flatMap String.utf8EncodeChar)
      rw [bytes] at scanned
      obtain rfl : '/' = c := (Scan.char.inj scanned).1
      refine ⟨String.ofList rest, String.toList_injective ?_⟩
      rw [chars, toList_slash_append, String.toList_ofList]

namespace Row.Denotes

variable {row : Row} {buffer : Bytes} {record : FileRecord}

/-- A stored path with a slash in front is stored again as it was read. -/
theorem storedPathBytes_eq (denotes : row.Denotes buffer record)
    (slash : (row.pathBytes buffer).head? = some 0x2F) :
    record.storedPathBytes = row.pathBytes buffer := by
  obtain ⟨stored, form, slashed | ⟨-, bare⟩⟩ := denotes.path
  · rw [form, slashed]
    rfl
  · rw [form] at slash
    obtain ⟨rest, slashed⟩ := Utf8.eq_slash_of_head? slash
    exact absurd slashed (bare rest)

theorem block_eq (denotes : row.Denotes buffer record)
    (slash : (row.pathBytes buffer).head? = some 0x2F) :
    record.block = row.block buffer := by
  rw [FileRecord.block, denotes.storedPathBytes_eq slash, denotes.data, Row.pathBytes,
    Row.content]
  exact List.take_append_drop _ _

theorem length_eq (denotes : row.Denotes buffer record)
    (slash : (row.pathBytes buffer).head? = some 0x2F) :
    row.length = record.blockLength := by
  have length := denotes.inBounds.length_block
  have pathLength := denotes.inBounds.pathLength_nonneg
  have path := denotes.inBounds.pathLength_le
  rw [← denotes.block_eq slash, FileRecord.length_block] at length
  omega

theorem pathLength_eq (denotes : row.Denotes buffer record)
    (slash : (row.pathBytes buffer).head? = some 0x2F) :
    row.pathLength = record.storedPathBytes.length := by
  have length := denotes.inBounds.length_block
  have pathLength := denotes.inBounds.pathLength_nonneg
  have path := denotes.inBounds.pathLength_le
  rw [denotes.storedPathBytes_eq slash, Row.pathBytes, List.length_take, length]
  omega

end Row.Denotes

/-- An entry is known from its row and its reserved word. -/
theorem IndexEntry.eq_of_row_eq {a b : IndexEntry} (rows : a.row = b.row)
    (reserved : a.reserved = b.reserved) : a = b := by
  obtain ⟨checksumA, offsetA, lengthA, pathLengthA, reservedA⟩ := a
  obtain ⟨checksumB, offsetB, lengthB, pathLengthB, reservedB⟩ := b
  obtain ⟨checksum, offset, length, pathLength⟩ := Row.mk.inj rows
  obtain rfl := Int64.toInt_inj.mp offset
  obtain rfl := Int64.toInt_inj.mp length
  obtain rfl := Int64.toInt_inj.mp pathLength
  obtain rfl : checksumA = checksumB := checksum
  obtain rfl : reservedA = reservedB := reserved
  rfl

/-! ## A canonical archive is what is laid out -/

namespace Bytes.IsCanonical

variable {buffer : Bytes} {records : List FileRecord} {index : Nat}

theorem slash_row (canonical : buffer.IsCanonical) (holds : buffer.Holds records)
    (inside : index < records.length) :
    ((buffer.row index).pathBytes buffer).head? = some 0x2F := by
  have counted := holds.length_eq
  exact canonical.slash index (by omega)

/-- In a canonical buffer blocks are due where the layout of the records would put them. -/
theorem due_eq (canonical : buffer.IsCanonical) (holds : buffer.Holds records)
    (inside : index ≤ records.length) :
    buffer.due index = Layout.blockStart records index := by
  refine due_eq_blockStart holds.length_eq ?_ index inside
  intro i inTable
  exact (holds.denotes i inTable).length_eq (canonical.slash_row holds inTable)

/-- No byte is left over. -/
theorem length_eq (canonical : buffer.IsCanonical) (holds : buffer.Holds records) :
    buffer.length = Layout.totalSize records := by
  have stop := canonical.stop_eq
  rw [← holds.length_eq, Int.toNat_natCast, canonical.due_eq holds (Nat.le_refl _),
    Layout.blockStart_length] at stop
  omega

/-- A row of a canonical buffer is the one that its record would be given. -/
theorem row_eq (canonical : buffer.IsCanonical) (holds : buffer.Holds records)
    (inside : index < records.length) :
    buffer.row index = {
      checksum := Djb2.checksum records[index].block
      offset := Layout.blockStart records index
      length := records[index].blockLength
      pathLength := records[index].storedPathBytes.length } := by
  have denotes := holds.denotes index inside
  have slash := canonical.slash_row holds inside
  have counted := holds.length_eq
  rw [denotes.block_eq slash, denotes.digest, ← denotes.length_eq slash,
    ← denotes.pathLength_eq slash, ← canonical.due_eq holds (Nat.le_of_lt inside),
    ← canonical.offset_eq index (by omega)]

theorem header_eq (canonical : buffer.IsCanonical) (holds : buffer.Holds records)
    (fits : Layout.FitsWords records) :
    (Layout.header records).toBytes = buffer.slice 0 24 := by
  have header := holds.opens.header_le
  have counted : records.length ≤ Layout.totalSize records := by
    unfold Layout.totalSize tableEnd entrySize
    omega
  refine Header.toBytes_of_fields _ header holds.opens.magic ?_ ?_
  · apply Int64.toInt_inj.mp
    rw [toInt_toInt64_slice buffer 8 (by omega)]
    refine Eq.trans holds.length_eq.symm (Layout.toInt_ofNat_of_fits fits counted).symm
  · apply Int64.toInt_inj.mp
    rw [toInt_toInt64_slice buffer 16 (by omega)]
    refine Eq.trans canonical.totalSize_eq ?_
    rw [canonical.length_eq holds]
    exact (Layout.toInt_ofNat_of_fits fits (Nat.le_refl _)).symm

theorem entry_eq (canonical : buffer.IsCanonical) (holds : buffer.Holds records)
    (fits : Layout.FitsWords records) (inside : index < records.length) :
    (records[index].entryAt (Layout.blockStart records index)).toBytes =
      buffer.slice (tableEnd index) entrySize := by
  have counted := holds.length_eq
  have table : tableEnd (index + 1) ≤ buffer.length := by
    have fitted := holds.opens.table_le
    unfold tableEnd headerSize entrySize
    omega
  rw [← IndexEntry.toBytes_ofBytes (length_slice buffer (tableEnd index) entrySize table)]
  refine congrArg IndexEntry.toBytes (IndexEntry.eq_of_row_eq ?_ ?_)
  · rw [Layout.row_entryAt fits inside, IndexEntry.row_ofBytes_slice _ _ table,
      canonical.row_eq holds inside]
  · rw [reserved_ofBytes_slice, canonical.reserved_eq index (by omega)]
    rfl

theorem table_eq (canonical : buffer.IsCanonical) (holds : buffer.Holds records)
    (fits : Layout.FitsWords records) :
    Layout.table records = buffer.slice 24 (36 * records.length) := by
  have found := slice_eq_flatMap IndexEntry.toBytes buffer (Layout.entries records) 24 ?_
  · rw [Layout.length_flatMap_toBytes, Layout.length_entries] at found
    exact found.symm
  · intro index inTable
    have inside : index < records.length := by
      rwa [Layout.length_entries] at inTable
    rw [Layout.length_flatMap_toBytes_take (Nat.le_of_lt inside),
      IndexEntry.length_toBytes, Layout.getElem_entries inside]
    exact (canonical.entry_eq holds fits inside).symm

/-- Behind the table a canonical buffer holds the blocks of its records and nothing else. -/
theorem blocks_eq (canonical : buffer.IsCanonical) (holds : buffer.Holds records) :
    Layout.blocks records =
      buffer.slice (tableEnd records.length) (Layout.blocksSize records) := by
  rw [← Layout.length_blocks]
  refine (slice_eq_flatMap FileRecord.block buffer records _ ?_).symm
  intro index inside
  have slash := canonical.slash_row holds inside
  have before : ((records.take index).flatMap FileRecord.block).length =
      Layout.blocksSize (records.take index) := Layout.length_blocks _
  rw [before, FileRecord.length_block, (holds.denotes index inside).block_eq slash,
    Row.block, canonical.row_eq holds inside]
  rfl

/-- **A canonical archive is what is laid out for the records in it.** -/
theorem encode_eq (canonical : buffer.IsCanonical) (holds : buffer.Holds records)
    (fits : Layout.FitsWords records) : Layout.encode records = buffer := by
  have whole : 24 + (36 * records.length + Layout.blocksSize records) = buffer.length := by
    rw [canonical.length_eq holds, Layout.totalSize, ← Nat.add_assoc]
    rfl
  have start : tableEnd records.length = 24 + 36 * records.length := rfl
  rw [Layout.encode, canonical.header_eq holds fits, canonical.table_eq holds fits,
    canonical.blocks_eq holds, start, slice_append_slice buffer 24,
    slice_append_slice buffer 0 24, whole]
  exact List.take_length

end Bytes.IsCanonical

/-- **The canonical archives are exactly what is laid out.**  An archive is laid out
again from the records in it if and only if it is canonical; what is laid out is
canonical; and so a buffer is what is laid out for some records if and only if it is a
canonical archive. -/
theorem encode_eq_iff_isCanonical :
    (∀ (buffer : Bytes) (records : List FileRecord), buffer.length < 2 ^ 63 →
        decode buffer = .ok records →
          (Layout.encode records = buffer ↔ buffer.IsCanonical)) ∧
      (∀ records : List FileRecord, Layout.totalSize records < 2 ^ 63 →
        (Layout.encode records).IsCanonical) ∧
      ∀ buffer : Bytes, buffer.length < 2 ^ 63 →
        ((∃ records, Layout.encode records = buffer) ↔
          (∃ records, decode buffer = .ok records) ∧ buffer.IsCanonical) := by
  have canonical : ∀ records : List FileRecord, Layout.totalSize records < 2 ^ 63 →
      (Layout.encode records).IsCanonical :=
    fun records fits => Layout.isCanonical_encode (Layout.fitsWords_iff.mpr fits)
  have again : ∀ (buffer : Bytes) (records : List FileRecord), buffer.length < 2 ^ 63 →
      decode buffer = .ok records →
        (Layout.encode records = buffer ↔ buffer.IsCanonical) := by
    intro buffer records small read
    have holds : buffer.Holds records := ((decode_decides buffer).ok_iff records).mp read
    constructor
    · rintro rfl
      rw [Layout.length_encode] at small
      exact canonical records small
    -- The bound on the buffer becomes one on the layout of its records only by their lengths.
    · intro isCanonical
      rw [isCanonical.length_eq holds] at small
      exact isCanonical.encode_eq holds (Layout.fitsWords_iff.mpr small)
  refine ⟨again, canonical, ?_⟩
  intro buffer small
  constructor
  · rintro ⟨records, rfl⟩
    rw [Layout.length_encode] at small
    have holds := Layout.holds_encode (Layout.fitsWords_iff.mpr small)
    exact ⟨⟨_, ((decode_decides _).ok_iff _).mpr holds⟩, canonical records small⟩
  · rintro ⟨⟨records, read⟩, isCanonical⟩
    exact ⟨records, (again buffer records small read).mpr isCanonical⟩

/-- An archive whose one stored path has no slash in front. -/
def slashless : Bytes :=
  Header.toBytes { indexCount := 1, totalSize := 67 } ++
    (IndexEntry.toBytes {
      checksum := Djb2.checksum [0x72, 0x61, 0x77, 0x64, 0x61, 0x74, 0x61]
      offset := 60
      length := 7
      pathLength := 3 } ++ [0x72, 0x61, 0x77, 0x64, 0x61, 0x74, 0x61])

/-- It is read, but it is not what is laid out for the file in it, which has the slash. -/
theorem encode_ne_slashless :
    decode slashless = .ok [⟨"raw", 4, [0x64, 0x61, 0x74, 0x61]⟩] ∧
      Layout.encode [⟨"raw", 4, [0x64, 0x61, 0x74, 0x61]⟩] ≠ slashless ∧
      (Layout.encode [⟨"raw", 4, [0x64, 0x61, 0x74, 0x61]⟩]).IsCanonical := by
  have read : decode slashless = .ok [⟨"raw", 4, [0x64, 0x61, 0x74, 0x61]⟩] := by cbv
  refine ⟨read, ?_, encode_eq_iff_isCanonical.2.1 _ (by decide)⟩
  intro same
  have canonical := (encode_eq_iff_isCanonical.1 slashless _ (by decide) read).mp same
  have slash := canonical.slash 0 (by decide)
  revert slash
  decide

end FlatArchive
