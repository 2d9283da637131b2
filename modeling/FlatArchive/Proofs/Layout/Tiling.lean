import FlatArchive.Layout.Checked
import FlatArchive.Proofs.Layout.RoundTrip
import Mathlib

/-!
# Blocks tile an archive

The size of an archive is computed three times: for the header, as the end of the last
block in the table, and by the bytes that are put together.  The three agree, and so do the
table that a builder has and the one that is read: each number is exact, each entry leads to
the block of its record, and the blocks fill what is behind the table, each byte belonging
to one of them.

`Span.Tiles` says the last of these of any spans.  For those of an archive it holds since
each block ends where the next one starts (`Layout.tiles_spans`).
-/

namespace FlatArchive

/-! ## Spans without gap or overlap -/

/-- The spans lie one behind the other, and the places in them are those from `start` up to
`stop`. -/
structure Span.Tiles (spans : List Span) (start stop : Nat) : Prop where
  ordered : spans.Pairwise fun a b => a.stop ≤ b.start
  covered : ∀ place, (∃ span ∈ spans, span.start ≤ place ∧ place < span.stop) ↔
    start ≤ place ∧ place < stop

/-- The entry gives exactly the span of a block of the buffer, and the block is the slash, the
path and the content of the record, cut where the path ends. -/
structure IndexEntry.Locates (entry : IndexEntry) (buffer : Bytes) (span : Span)
    (record : FileRecord) : Prop where
  span?_eq : entry.span? buffer.length = some span
  offset_eq : entry.offset.toInt = span.start
  length_eq : entry.length.toInt = 1 + (Utf8.encode record.path).length + record.data.length
  pathLength_eq : entry.pathLength.toInt = 1 + (Utf8.encode record.path).length
  block_eq : buffer.within span = (0x2F :: Utf8.encode record.path) ++ record.data
  path_eq : (buffer.within span).take entry.pathLength.toInt.toNat =
    0x2F :: Utf8.encode record.path
  data_eq : (buffer.within span).drop entry.pathLength.toInt.toNat = record.data

namespace Layout

/-- From where each block starts to where the next one does. -/
def spans (records : List FileRecord) : List Span :=
  (List.range records.length).map fun index =>
    ⟨blockStart records index, blockStart records (index + 1)⟩

variable {records : List FileRecord} {index : Nat}

theorem length_spans (records : List FileRecord) : (spans records).length = records.length := by
  rw [spans, List.length_map, List.length_range]

theorem getElem_spans (inside : index < (spans records).length) :
    (spans records)[index] =
      ⟨blockStart records index, blockStart records (index + 1)⟩ := by
  simp only [spans, List.getElem_map, List.getElem_range]

/-- A place between the start of the first block and that of block `count` is in a block
before that one. -/
theorem exists_blockStart_le {place : Nat} (from_start : blockStart records 0 ≤ place) :
    ∀ count, place < blockStart records count →
      ∃ index < count, blockStart records index ≤ place ∧
        place < blockStart records (index + 1) := by
  intro count
  induction count with
  | zero => exact fun to_stop => absurd to_stop (Nat.not_lt_of_le from_start)
  | succ count ih =>
      intro to_stop
      rcases Nat.lt_or_ge place (blockStart records count) with earlier | last
      · obtain ⟨index, below, inside⟩ := ih earlier
        exact ⟨index, Nat.lt_succ_of_lt below, inside⟩
      · exact ⟨count, Nat.lt_succ_self count, last, to_stop⟩

/-- **Blocks tile what is behind the table.** -/
theorem tiles_spans (records : List FileRecord) :
    Span.Tiles (spans records) (tableEnd records.length) (totalSize records) where
  ordered := by
    rw [spans, List.pairwise_map]
    exact List.pairwise_lt_range.imp fun earlier => blockStart_mono earlier
  covered := by
    intro place
    rw [← blockStart_length records, ← blockStart_zero records]
    constructor
    · rintro ⟨span, member, from_start, to_stop⟩
      obtain ⟨index, inRange, rfl⟩ := List.mem_map.mp member
      have inside := List.mem_range.mp inRange
      exact ⟨Nat.le_trans (blockStart_mono (Nat.zero_le index)) from_start,
        Nat.lt_of_lt_of_le to_stop (blockStart_mono inside)⟩
    · rintro ⟨from_start, to_stop⟩
      obtain ⟨index, inside, found⟩ := exists_blockStart_le from_start _ to_stop
      exact ⟨_, List.mem_map.mpr ⟨index, List.mem_range.mpr inside, rfl⟩, found⟩

/-- The entry of a record leads to its block. -/
theorem locates_entryAt (fits : FitsWords records) (inside : index < records.length) :
    (records[index].entryAt (blockStart records index)).Locates (encode records)
      ⟨blockStart records index, blockStart records (index + 1)⟩ records[index] := by
  have row := row_entryAt fits inside
  have block := within_block inside
  have pathLength : (records[index].entryAt (blockStart records index)).pathLength.toInt =
      records[index].storedPathBytes.length := congrArg Row.pathLength row
  constructor
  · exact span?_entryAt fits inside
  · exact congrArg Row.offset row
  · have length : (records[index].entryAt (blockStart records index)).length.toInt =
        records[index].blockLength := congrArg Row.length row
    rw [length, FileRecord.blockLength, Int.natCast_add, Int.natCast_add]
    rfl
  · rw [pathLength, FileRecord.storedPathBytes_eq, List.length_cons]
    omega
  · rw [block, FileRecord.block, FileRecord.storedPathBytes_eq]
  · rw [block, pathLength, ← FileRecord.storedPathBytes_eq]
    exact List.take_left
  · rw [block, pathLength]
    exact List.drop_left

/-- To each record there are an entry in the table and a span, in the same place. -/
theorem exists_locates (fits : FitsWords records) {record : FileRecord}
    (found : records[index]? = some record) :
    ∃ entry span, (entries records)[index]? = some entry ∧
      (spans records)[index]? = some span ∧ entry.Locates (encode records) span record := by
  obtain ⟨inside, rfl⟩ := List.getElem?_eq_some_iff.mp found
  have inTable : index < (entries records).length := by
    rwa [length_entries]
  have listed : index < (spans records).length := by
    rwa [length_spans]
  refine ⟨_, _, ?_, ?_, locates_entryAt fits inside⟩
  · rw [List.getElem?_eq_getElem inTable, getElem_entries inside]
  · rw [List.getElem?_eq_getElem listed, getElem_spans listed]

/-- The table that is read from an archive is the one that was laid out. -/
theorem indexEntries_encode (fits : FitsWords records) {reader : Reader}
    (laidOut : reader.bytes = encode records) : reader.indexEntries = entries records := by
  have count : reader.count = records.length := by
    rw [reader.count_eq, laidOut, indexCount_encode fits, Int.toNat_natCast]
  apply List.ext_getElem
  · rw [Reader.indexEntries, List.length_map, List.length_range, count, length_entries]
  · intro index _ inTable
    have inside : index < records.length := by
      rwa [length_entries] at inTable
    rw [getElem_entries inside]
    simp only [Reader.indexEntries, List.getElem_map, List.getElem_range]
    exact indexEntryAt_encode laidOut inside

end Layout

/-! ## Whatever was built up -/

namespace Builder

/-- Something that is done to an archive in preparation. -/
inductive Step
  | addFile (path : String) (data : Bytes)
  | addRecord (record : FileRecord)
  /-- Starts anew with some records. -/
  | collect (records : List FileRecord)

/-- What comes of a step. -/
def after (builder : Builder) : Step → Builder
  | .addFile path data => builder.addFile path data
  | .addRecord record => builder.addRecord record
  | .collect records => ⟨records⟩

/-- What comes of some steps in a row. -/
def run (steps : List Step) : Builder :=
  steps.foldl after empty

/-- The reader has the archive open, the spans are its blocks, and what the builder, the
header, the table and the blocks say is all the same. -/
structure LaidOut (builder : Builder) (reader : Reader) (spans : List Span) : Prop where
  opened : Reader.ofBytes builder.build = .ok reader
  indexCount_eq : reader.header.indexCount.toInt = builder.length
  declared_eq : reader.header.totalSize.toInt = builder.build.length
  length_build : builder.build.length = builder.totalSize
  indexEntries_eq : reader.indexEntries = builder.indexEntries
  length_spans : spans.length = builder.length
  tiles : Span.Tiles spans (24 + 36 * builder.length) builder.build.length
  locates : ∀ (index : Nat) (record : FileRecord), builder.records[index]? = some record →
    ∃ entry span, builder.indexEntries[index]? = some entry ∧ spans[index]? = some span ∧
      entry.Locates builder.build span record

end Builder

/-- **What is built up is laid out exactly.**  Whatever was done to a builder, as long as the
archive is shorter than 2 ^ 63 bytes: no sum or product on the way is too large for a word;
the archive opens, with the count, the size and the table of the builder; each entry gives
exactly the place of its block, which is the stored path and the content; and the blocks tile
what is behind the table. -/
theorem Builder.exists_laidOut (steps : List Builder.Step)
    (fits : (Builder.run steps).totalSize < 2 ^ 63) :
    (Layout.totalSize? (Builder.run steps).records = .ok (Builder.run steps).totalSize ∧
        Layout.entries? (Builder.run steps).records = .ok (Builder.run steps).indexEntries ∧
        Layout.encode? (Builder.run steps).records = .ok (Builder.run steps).build) ∧
      ∃ reader spans, (Builder.run steps).LaidOut reader spans := by
  -- nothing else is known of a builder but its records
  generalize Builder.run steps = builder at *
  obtain ⟨records⟩ := builder
  have words : Layout.FitsWords records := Layout.fitsWords_iff.mpr fits
  have word : Layout.totalSize records < UInt64.size := lt_trans fits (by decide)
  refine ⟨⟨Layout.totalSize?_eq word, Layout.entries?_eq word, Layout.encode?_eq word⟩, ?_⟩
  have length := Layout.length_encode records
  obtain ⟨reader, opened⟩ :=
    (Reader.exists_ofBytes_iff_opens _).mpr (Layout.opens_encode words)
  have laidOut := Reader.bytes_of_ofBytes opened
  refine ⟨reader, Layout.spans records, ?_⟩
  constructor
  · exact opened
  · rw [reader.indexCount_eq, laidOut, Layout.indexCount_encode words]
    rfl
  · rw [reader.totalSize_eq, laidOut, Layout.totalSize_encode words, ← length]
    rfl
  · exact length
  · exact Layout.indexEntries_encode words laidOut
  · exact Layout.length_spans records
  · have tiles := Layout.tiles_spans records
    rw [← length] at tiles
    exact tiles
  · exact fun index record => Layout.exists_locates words

/-- A record with a letter of two bytes and a wrong size, one with neither a path nor
content, and a file. -/
def mixedSteps : List Builder.Step :=
  [.addFile "lost" [0xFF], .collect [⟨"/naïve", 9, [0x2F]⟩], .addRecord ⟨"", 77, []⟩,
    .addFile "b" [0x01, 0x02]]

theorem Builder.laidOut_mixedSteps :
    (Builder.run mixedSteps).totalSize = 146 ∧
      (Builder.run mixedSteps).indexEntries.map IndexEntry.offset = [132, 141, 142] ∧
      (Builder.run mixedSteps).indexEntries.map IndexEntry.pathLength = [8, 1, 2] ∧
      Layout.encode? (Builder.run mixedSteps).records = .ok (Builder.run mixedSteps).build ∧
      ∃ reader spans, (Builder.run mixedSteps).LaidOut reader spans := by
  have fits : (Builder.run mixedSteps).totalSize < 2 ^ 63 := by decide
  have exact := Builder.exists_laidOut mixedSteps fits
  refine ⟨?_, ?_, ?_, exact.1.2.2, exact.2⟩
  · decide
  · decide
  · decide

end FlatArchive
