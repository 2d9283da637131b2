import FlatArchive.Bytes.Checked
import FlatArchive.Format.Header

/-!
# Index entries

The table behind the header has one entry of 36 bytes for each file:

| place | bytes | field                                        |
|------:|------:|----------------------------------------------|
|     0 |     8 | digest of the block                          |
|     8 |     8 | where the block starts in the archive        |
|    16 |     8 | how long the block is                        |
|    24 |     8 | how much of the block is the stored path     |
|    32 |     4 | reserved: written as zero, ignored on reading |

The three places in the middle are signed words that anyone may have written.
`span?` is the one judge of them: it answers in unbounded numbers, and what it
accepts is a block inside the buffer whose path fits in it.
-/

namespace FlatArchive

/-- What the table says about one file. -/
structure IndexEntry where
  checksum : UInt64
  offset : Int64
  length : Int64
  pathLength : Int64
  reserved : UInt32 := 0
  deriving DecidableEq, Repr

/-- A stretch of a buffer, from `start` up to and without `stop`. -/
structure Span where
  start : Nat
  stop : Nat
  deriving DecidableEq, Repr

/-- The bytes of a buffer that a span covers. -/
def Bytes.within (buffer : Bytes) (span : Span) : Bytes :=
  buffer.slice span.start (span.stop - span.start)

namespace IndexEntry

/-- The written form. -/
def toBytes (entry : IndexEntry) : Bytes :=
  LittleEndian.ofUInt64 entry.checksum
    ++ (LittleEndian.ofInt64 entry.offset
    ++ (LittleEndian.ofInt64 entry.length
    ++ (LittleEndian.ofInt64 entry.pathLength
    ++ LittleEndian.ofUInt32 entry.reserved)))

@[simp] theorem length_toBytes (entry : IndexEntry) :
    entry.toBytes.length = entrySize := by
  simp [toBytes, entrySize]

/-- The entry that 36 bytes stand for; more bytes do not matter. -/
def ofBytes (bytes : Bytes) : IndexEntry where
  checksum := LittleEndian.toUInt64 (bytes.slice 0 8)
  offset := LittleEndian.toInt64 (bytes.slice 8 8)
  length := LittleEndian.toInt64 (bytes.slice 16 8)
  pathLength := LittleEndian.toInt64 (bytes.slice 24 8)
  reserved := LittleEndian.toUInt32 (bytes.slice 32 4)

/-- Reads an entry from the front of a buffer, which has to hold one. -/
def parse (bytes : Bytes) : Checked IndexEntry :=
  (Checked.slice bytes 0 entrySize).map ofBytes

/-- Where the block lies in an archive of `archiveLength` bytes.  There is no
answer when a field is negative, the path is longer than the block, or the block
runs past the end. -/
def span? (entry : IndexEntry) (archiveLength : Nat) : Option Span :=
  let offset := entry.offset.toInt
  let length := entry.length.toInt
  let pathLength := entry.pathLength.toInt
  if 0 ≤ offset ∧ 0 ≤ pathLength ∧ pathLength ≤ length
      ∧ offset + length ≤ archiveLength then
    some ⟨offset.toNat, (offset + length).toNat⟩
  else none

/-- The bytes of the block that are not path, as the entry has it. -/
def dataSize (entry : IndexEntry) : Checked Int64 :=
  Checked.signedSub entry.length entry.pathLength

end IndexEntry

end FlatArchive
