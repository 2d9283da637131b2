import FlatArchive.Bytes.LittleEndian
import FlatArchive.Format.ArchiveError

/-!
# The header

An archive opens with 24 bytes: the eight bytes that mark the format, the number
of index entries and the size of the whole, both as signed words.  Signed fields
are kept as `Int64`, as they stand: whether a number makes sense is for the
reader to judge, and a header that does not make sense can still be written and
shown.

`toBytes` and `parse` are inverse to each other on headers that carry the mark
of the format; `length_toBytes` fixes the size.
-/

namespace FlatArchive

/-- The eight bytes in front of an archive. -/
structure Magic where
  bytes : Bytes
  length_bytes : bytes.length = 8
  deriving DecidableEq

namespace Magic

/-- The mark of the format, in ASCII. -/
def archive : Magic :=
  ⟨[0x54, 0x41, 0x54, 0x49, 0x58, 0x5F, 0x41, 0x52], rfl⟩

/-- Eight bytes as a mark. -/
def ofBytes? (bytes : Bytes) : Option Magic :=
  if h : bytes.length = 8 then some ⟨bytes, h⟩ else none

end Magic

/-- The bytes that a header takes. -/
def headerSize : Nat := 24

/-- The bytes that an index entry takes. -/
def entrySize : Nat := 36

/-- Where the index table of `count` entries ends and the blocks begin. -/
def tableEnd (count : Nat) : Nat :=
  headerSize + entrySize * count

/-- The greatest unsigned word, at which sizes in reports stop growing. -/
def maxWord : Nat := UInt64.size - 1

/-- What the first 24 bytes of an archive say. -/
structure Header where
  magic : Magic := Magic.archive
  indexCount : Int64
  totalSize : Int64
  deriving DecidableEq

namespace Header

/-- Where the blocks begin according to the header: a negative count counts as
none, and the result is capped at the greatest word. -/
def dataStart (header : Header) : Nat :=
  min (tableEnd header.indexCount.toInt.toNat) maxWord

/-- The written form. -/
def toBytes (header : Header) : Bytes :=
  header.magic.bytes
    ++ (LittleEndian.ofInt64 header.indexCount ++ LittleEndian.ofInt64 header.totalSize)

@[simp] theorem length_toBytes (header : Header) :
    header.toBytes.length = headerSize := by
  simp [toBytes, headerSize, header.magic.length_bytes]

/-- Reads the header at the front of a buffer.  Only the length and the mark are
checked here. -/
def parse (buffer : Bytes) : Except ArchiveError Header :=
  if buffer.length < headerSize then
    .error (.truncated headerSize buffer.length)
  else if buffer.slice 0 8 ≠ Magic.archive.bytes then
    .error (.invalidMagic (buffer.slice 0 8))
  else
    .ok {
      indexCount := LittleEndian.toInt64 (buffer.slice 8 8)
      totalSize := LittleEndian.toInt64 (buffer.slice 16 8) }

end Header

end FlatArchive
