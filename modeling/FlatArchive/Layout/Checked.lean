import FlatArchive.Bytes.Checked
import FlatArchive.Layout.Basic

/-!
# Laying out on a machine

`Layout` computes sizes and offsets in natural numbers.  A machine computes them in words,
and a sum or a product that is no word stops the program.  Here the computation is written
once more with the checks that a machine makes, and with the running numbers that it keeps:
the sizes of the blocks are summed up from nothing before the table is added, and the offset
moves on behind each block, the last one included.

A word becomes a signed field by keeping its bits, which is no check; what the field then
stands for is a matter of the size of the whole.

There is one equation for each computation.  As long as the whole archive has a word for its
size, no check fails, for each number on the way is at most that size.
-/

namespace FlatArchive

/-- The bytes that a record takes behind the table. -/
def FileRecord.blockLength? (record : FileRecord) : Checked Nat := do
  Checked.add (← Checked.add 1 (Utf8.encode record.path).length) record.data.length

namespace Layout

/-- Where the index table of `count` entries ends. -/
def tableEnd? (count : Nat) : Checked Nat := do
  Checked.add headerSize (← Checked.mul entrySize count)

/-- The bytes that the blocks of some records take, added to `size`. -/
def blocksSize? : (size : Nat) → List FileRecord → Checked Nat
  | size, [] => .ok size
  | size, record :: rest => do
    blocksSize? (← Checked.add size (← record.blockLength?)) rest

/-- The bytes that an archive of some records takes. -/
def totalSize? (records : List FileRecord) : Checked Nat := do
  let table ← tableEnd? records.length
  Checked.add table (← blocksSize? 0 records)

/-- The header of an archive of some records. -/
def header? (records : List FileRecord) : Checked Header := do
  return {
    indexCount := Int64.ofNat records.length
    totalSize := Int64.ofNat (← totalSize? records) }

/-- The entries of records whose blocks start at `offset`. -/
def entriesFrom? : (offset : Nat) → List FileRecord → Checked (List IndexEntry)
  | _, [] => .ok []
  | offset, record :: rest => do
    let length ← record.blockLength?
    let entry : IndexEntry := {
      checksum := ((Djb2.start.update record.storedPathBytes).update record.data).digest
      offset := Int64.ofNat offset
      length := Int64.ofNat length
      pathLength := Int64.ofNat record.storedPathBytes.length }
    let entries ← entriesFrom? (← Checked.add offset length) rest
    return entry :: entries

/-- The index table. -/
def entries? (records : List FileRecord) : Checked (List IndexEntry) := do
  entriesFrom? (← tableEnd? records.length) records

/-- The bytes of an archive of some records. -/
def encode? (records : List FileRecord) : Checked Bytes := do
  let header ← header? records
  let entries ← entries? records
  return header.toBytes ++ (entries.flatMap IndexEntry.toBytes ++ blocks records)

/-! ## No check fails -/

theorem blockLength?_eq {record : FileRecord} (word : record.blockLength < UInt64.size) :
    record.blockLength? = .ok record.blockLength := by
  unfold FileRecord.blockLength at word
  have path : 1 + (Utf8.encode record.path).length < UInt64.size := by omega
  unfold FileRecord.blockLength?
  simp only [Checked.add_eq_ok path, bind, Except.bind]
  exact Checked.add_eq_ok word

theorem tableEnd?_eq {count : Nat} (word : tableEnd count < UInt64.size) :
    tableEnd? count = .ok (tableEnd count) := by
  unfold tableEnd at word
  have product : entrySize * count < UInt64.size := by omega
  unfold tableEnd?
  simp only [Checked.mul_eq_ok product, bind, Except.bind]
  exact Checked.add_eq_ok word

/-- The running sum is at most the last one, which is a word. -/
theorem blocksSize?_eq :
    ∀ (records : List FileRecord) (size : Nat), size + blocksSize records < UInt64.size →
      blocksSize? size records = .ok (size + blocksSize records) := by
  intro records
  induction records with
  | nil => exact fun size _ => rfl
  | cons record rest ih =>
      intro size word
      rw [blocksSize, ← Nat.add_assoc] at word
      have length : record.blockLength < UInt64.size := by omega
      have sum : size + record.blockLength < UInt64.size := by omega
      unfold blocksSize?
      simp only [blockLength?_eq length, bind, Except.bind, Checked.add_eq_ok sum]
      rw [ih _ word, blocksSize, Nat.add_assoc]

variable {records : List FileRecord}

/-- The checked size is the exact one if that is a word. -/
theorem totalSize?_eq (word : totalSize records < UInt64.size) :
    totalSize? records = .ok (totalSize records) := by
  unfold totalSize at word
  have table : tableEnd records.length < UInt64.size := by omega
  have blocks : 0 + blocksSize records < UInt64.size := by omega
  unfold totalSize?
  simp only [tableEnd?_eq table, bind, Except.bind, blocksSize?_eq records 0 blocks,
    Nat.zero_add]
  exact Checked.add_eq_ok word

theorem header?_eq (word : totalSize records < UInt64.size) :
    header? records = .ok (header records) := by
  unfold header?
  simp only [totalSize?_eq word, bind, Except.bind]
  rfl

/-- The running offset is at most the end of the last block, which is a word. -/
theorem entriesFrom?_eq :
    ∀ (records : List FileRecord) (offset : Nat), offset + blocksSize records < UInt64.size →
      entriesFrom? offset records = .ok (entriesFrom offset records) := by
  intro records
  induction records with
  | nil => exact fun offset _ => rfl
  | cons record rest ih =>
      intro offset word
      rw [blocksSize, ← Nat.add_assoc] at word
      have length : record.blockLength < UInt64.size := by omega
      have next : offset + record.blockLength < UInt64.size := by omega
      unfold entriesFrom?
      simp only [blockLength?_eq length, bind, Except.bind, Checked.add_eq_ok next,
        ih _ word]
      rfl

theorem entries?_eq (word : totalSize records < UInt64.size) :
    entries? records = .ok (entries records) := by
  unfold totalSize at word
  have table : tableEnd records.length < UInt64.size := by omega
  unfold entries?
  simp only [tableEnd?_eq table, bind, Except.bind]
  exact entriesFrom?_eq records _ word

/-- **Laying out on a machine** gives the archive, as long as its size is a word. -/
theorem encode?_eq (word : totalSize records < UInt64.size) :
    encode? records = .ok (encode records) := by
  unfold encode?
  simp only [header?_eq word, bind, Except.bind, entries?_eq word]
  rfl

end Layout

end FlatArchive
