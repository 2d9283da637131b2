import FlatArchive.Digest
import FlatArchive.FileRecord
import FlatArchive.Format.IndexEntry

/-!
# Laying out an archive

```text
header | entry 0 | entry 1 | … | block 0 | block 1 | …
```

Blocks follow each other in the order of the entries, without gaps, and the
first one starts where the table ends.  The layout is a function of the records
and their order alone.

Sizes and offsets are computed as natural numbers and become signed words only
in the fields of an entry: as long as the whole archive is shorter than 2 ^ 63
bytes, a field holds exactly the number that was computed.  `length_encode` says
that the whole has the size that its header declares.
-/

namespace FlatArchive

namespace FileRecord

/-- The bytes that a record takes behind the table: a slash, the path and the
content. -/
def blockLength (record : FileRecord) : Nat :=
  1 + (Utf8.encode record.path).length + record.data.length

theorem storedPathBytes_eq (record : FileRecord) :
    record.storedPathBytes = 0x2F :: Utf8.encode record.path := by
  have h : String.utf8EncodeChar '/' = [0x2F] := by decide
  simp [storedPathBytes, storedPath, Utf8.encode, h]

/-- A block is as long as its row says. -/
theorem length_block (record : FileRecord) :
    record.block.length = record.blockLength := by
  simp only [block, storedPathBytes_eq, blockLength, List.length_append,
    List.length_cons]
  omega

/-- The index entry of a record whose block starts at `offset`. -/
def entryAt (record : FileRecord) (offset : Nat) : IndexEntry where
  checksum :=
    ((Djb2.start.update record.storedPathBytes).update record.data).digest
  offset := Int64.ofNat offset
  length := Int64.ofNat record.blockLength
  pathLength := Int64.ofNat record.storedPathBytes.length

theorem checksum_entryAt (record : FileRecord) (offset : Nat) :
    (record.entryAt offset).checksum = Djb2.checksum record.block := by
  simp [entryAt, Djb2.checksum, block, Djb2.update_append]

end FileRecord

namespace Layout

/-- The bytes that the blocks of some records take. -/
def blocksSize : (records : List FileRecord) → Nat
  | [] => 0
  | record :: rest => record.blockLength + blocksSize rest

/-- The bytes that an archive of some records takes. -/
def totalSize (records : List FileRecord) : Nat :=
  tableEnd records.length + blocksSize records

/-- The header of an archive of some records. -/
def header (records : List FileRecord) : Header where
  indexCount := Int64.ofNat records.length
  totalSize := Int64.ofNat (totalSize records)

/-- The entries of records whose blocks start at `offset`. -/
def entriesFrom : Nat → List FileRecord → List IndexEntry
  | _, [] => []
  | offset, record :: rest =>
    record.entryAt offset :: entriesFrom (offset + record.blockLength) rest

/-- The index table. -/
def entries (records : List FileRecord) : List IndexEntry :=
  entriesFrom (tableEnd records.length) records

/-- The bytes of the index table. -/
def table (records : List FileRecord) : Bytes :=
  (entries records).flatMap IndexEntry.toBytes

/-- The bytes behind the index table. -/
def blocks (records : List FileRecord) : Bytes :=
  records.flatMap FileRecord.block

/-- The bytes of an archive of some records. -/
def encode (records : List FileRecord) : Bytes :=
  (header records).toBytes ++ (table records ++ blocks records)

@[simp] theorem length_entriesFrom (offset : Nat) (records : List FileRecord) :
    (entriesFrom offset records).length = records.length := by
  induction records generalizing offset with
  | nil => rfl
  | cons record rest ih => simp [entriesFrom, ih]

@[simp] theorem length_entries (records : List FileRecord) :
    (entries records).length = records.length :=
  length_entriesFrom _ _

theorem length_flatMap_toBytes (entries : List IndexEntry) :
    (entries.flatMap IndexEntry.toBytes).length = entrySize * entries.length := by
  induction entries with
  | nil => rfl
  | cons entry rest ih =>
    simp only [List.flatMap_cons, List.length_append, ih,
      IndexEntry.length_toBytes, List.length_cons, Nat.mul_succ]
    omega

theorem length_table (records : List FileRecord) :
    (table records).length = entrySize * records.length := by
  rw [table, length_flatMap_toBytes, length_entries]

/-- The blocks take as many bytes as were counted for them. -/
theorem length_blocks (records : List FileRecord) :
    (blocks records).length = blocksSize records := by
  induction records with
  | nil => rfl
  | cons record rest ih =>
    rw [blocks, List.flatMap_cons, List.length_append, FileRecord.length_block, blocksSize]
    exact congrArg (record.blockLength + ·) ih

/-- An archive has the size that was computed for it. -/
theorem length_encode (records : List FileRecord) :
    (encode records).length = totalSize records := by
  simp only [encode, List.length_append, Header.length_toBytes, length_table,
    length_blocks, totalSize, tableEnd]
  omega

end Layout

/-! ## Building up an archive -/

/-- An archive in preparation: its files, in the order of the layout. -/
structure Builder where
  records : List FileRecord := []
  deriving DecidableEq, Repr

namespace Builder

/-- No files yet. -/
def empty : Builder := {}

/-- Appends a record as it is. -/
def addRecord (builder : Builder) (record : FileRecord) : Builder :=
  ⟨builder.records ++ [record]⟩

/-- Appends a file. -/
def addFile (builder : Builder) (path : String) (data : Bytes) : Builder :=
  builder.addRecord (FileRecord.ofFile path data)

/-- The number of files. -/
def length (builder : Builder) : Nat :=
  builder.records.length

/-- Whether there is no file. -/
def isEmpty (builder : Builder) : Bool :=
  builder.records.isEmpty

/-- The size of the archive. -/
def totalSize (builder : Builder) : Nat :=
  Layout.totalSize builder.records

/-- The index table of the archive. -/
def indexEntries (builder : Builder) : List IndexEntry :=
  Layout.entries builder.records

/-- The archive. -/
def build (builder : Builder) : Bytes :=
  Layout.encode builder.records

end Builder

end FlatArchive
