import FlatArchive.Digest
import FlatArchive.FileRecord
import FlatArchive.Format.IndexEntry
import FlatArchive.Log

/-!
# Reading an archive

Opening a buffer checks what concerns the archive as a whole: the header, that
the index table lies inside the buffer, and that the declared size does too.
What was checked is part of the type: a `Reader` *is* a buffer whose table is
there, so an entry below `count` can always be looked up.

Each entry is judged on its own, when it is asked for: first its place, then the
digest of its block, then whether its path is text.  `judge` sees nothing of the
archive but the length of the buffer and the block itself, and so damage to one
block stays in one entry.

`decode` reads everything and stops at the first bad entry.
-/

namespace FlatArchive

/-- A buffer that opened as an archive. -/
structure Reader where
  bytes : Bytes
  header : Header
  parse_bytes : Header.parse bytes = .ok header
  indexCount_nonneg : 0 ≤ header.indexCount.toInt
  tableEnd_le : tableEnd header.indexCount.toInt.toNat ≤ bytes.length
  totalSize_nonneg : 0 ≤ header.totalSize.toInt
  totalSize_le : header.totalSize.toInt ≤ bytes.length

/-- A file found in an archive. -/
structure Entry where
  /-- The stored path without one leading slash. -/
  path : String
  data : Bytes
  checksum : UInt64
  /-- Where the block starts. -/
  offset : Nat
  deriving DecidableEq, Repr

namespace Entry

/-- The bytes of content. -/
def size (entry : Entry) : Nat :=
  entry.data.length

/-- The file as a record. -/
def toRecord (entry : Entry) : FileRecord :=
  FileRecord.ofFile entry.path entry.data

end Entry

/-- Takes one leading slash away, if there is one. -/
def withoutLeadingSlash (stored : String) : String :=
  match stored.toList with
  | '/' :: rest => String.ofList rest
  | _ => stored

/-- Judges the block of entry `index`, whose digest and path length the entry
gives. -/
def IndexEntry.judge (entry : IndexEntry) (index : Nat) (block : Bytes) :
    Except ArchiveError Entry :=
  let computed := Djb2.checksum block
  let pathLength := entry.pathLength.toInt.toNat
  if computed ≠ entry.checksum then
    .error (.checksumMismatch index entry.checksum computed)
  else match Utf8.decode (block.take pathLength) with
    | .error cause => .error (.invalidPath index cause)
    | .ok stored => .ok {
        path := withoutLeadingSlash stored
        data := block.drop pathLength
        checksum := entry.checksum
        offset := entry.offset.toInt.toNat }

namespace Reader

/-- Opens a buffer as an archive. -/
def ofBytes (bytes : Bytes) : Except ArchiveError Reader :=
  match hp : Header.parse bytes with
  | .error e => .error e
  | .ok header =>
    if hc : header.indexCount.toInt < 0 then
      .error (.negativeIndexCount header.indexCount.toInt)
    else if ht : bytes.length < tableEnd header.indexCount.toInt.toNat then
      .error (.truncated header.dataStart bytes.length)
    else if hs : header.totalSize.toInt < 0 ∨ bytes.length < header.totalSize.toInt then
      .error (.sizeMismatch header.totalSize.toInt bytes.length)
    else .ok {
      bytes := bytes
      header := header
      parse_bytes := hp
      indexCount_nonneg := by omega
      tableEnd_le := by omega
      totalSize_nonneg := by omega
      totalSize_le := by omega }

/-- The number of entries. -/
def count (reader : Reader) : Nat :=
  reader.header.indexCount.toInt.toNat

/-- The bytes that the header accounts for. -/
def declared (reader : Reader) : Nat :=
  reader.header.totalSize.toInt.toNat

/-- The bytes that the header does not account for. -/
def trailing (reader : Reader) : Nat :=
  reader.bytes.length - reader.declared

/-- What is said about a buffer on opening it: bytes past the declared size are
no error, but they are mentioned. -/
def notices (reader : Reader) : List Log.Line :=
  if reader.trailing = 0 then []
  else [{
    level := .warn
    origin := .container
    message := s!"archive header declares {reader.declared} bytes, "
      ++ s!"ignoring {reader.trailing} trailing bytes" }]

/-- The entry in place `index` of the table, whatever it says. -/
def indexEntryAt (reader : Reader) (index : Nat) : IndexEntry :=
  IndexEntry.ofBytes (reader.bytes.slice (tableEnd index) entrySize)

/-- The entry in place `index`, if the table is that long. -/
def indexEntryAt? (reader : Reader) (index : Nat) : Option IndexEntry :=
  if index < reader.count then some (reader.indexEntryAt index) else none

/-- The index table. -/
def indexEntries (reader : Reader) : List IndexEntry :=
  (List.range reader.count).map reader.indexEntryAt

/-- The file of the entry in place `index`, or what is wrong with it. -/
def entryAt (reader : Reader) (index : Nat) : Except ArchiveError Entry :=
  let entry := reader.indexEntryAt index
  match entry.span? reader.bytes.length with
  | none => .error (.entryOutOfBounds index entry.offset.toInt entry.length.toInt
      entry.pathLength.toInt)
  | some span => entry.judge index (reader.bytes.within span)

/-- The file of the entry in place `index`, if the table is that long. -/
def entryAt? (reader : Reader) (index : Nat) : Option (Except ArchiveError Entry) :=
  if index < reader.count then some (reader.entryAt index) else none

/-- All files in the order of the table, or what is wrong with the first bad
entry. -/
def entries (reader : Reader) : Except ArchiveError (List Entry) :=
  (List.range reader.count).mapM reader.entryAt

end Reader

/-- The records in an archive, or what is wrong with it. -/
def decode (bytes : Bytes) : Except ArchiveError (List FileRecord) :=
  match Reader.ofBytes bytes with
  | .error e => .error e
  | .ok reader => reader.entries.map (List.map Entry.toRecord)

end FlatArchive
