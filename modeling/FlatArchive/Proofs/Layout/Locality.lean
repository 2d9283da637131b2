import FlatArchive.Proofs.Layout.RoundTrip
import FlatArchive.Proofs.Reader.Front
import Mathlib

/-!
# Damage stays local

What is read for one entry depends on little of a buffer: on its length, on the first 32
bytes of the row and on the block that the row points to.  Two buffers that agree on these
give the same result, be it a file or a report, whatever else is in them: other headers, other
rows, blocks that overlap this one (`Reader.entryAt_eq_of_agree`).

In an archive that was laid out, the parts of one record are apart from those of every
other.  `Layout.Exposed` are the places of one record, and the reserved words, which belong
to nobody; neither the header nor the parts of another record are among them
(`not_exposed_of_header`, `not_exposed_of_row`, `not_exposed_of_block`), and so damage there
leaves all other files as they were.
-/

namespace FlatArchive

/-! ## What one entry depends on -/

namespace Reader

variable {a b : Reader} {index : Nat}

/-- Rows that agree in front of the reserved word are read as the same entry, up to the
reserved word. -/
theorem indexEntryAt_eq_of_row
    (row : a.bytes.slice (tableEnd index) 32 = b.bytes.slice (tableEnd index) 32) :
    ∃ word, a.indexEntryAt index = { b.indexEntryAt index with reserved := word } := by
  have field : ∀ place, place + 8 ≤ 32 →
      (a.bytes.slice (tableEnd index) entrySize).slice place 8 =
        (b.bytes.slice (tableEnd index) entrySize).slice place 8 := by
    intro place inside
    have inRow : place + 8 ≤ entrySize := Nat.le_trans inside (by decide)
    rw [Bytes.slice_slice _ _ _ _ _ inRow, Bytes.slice_slice _ _ _ _ _ inRow,
      ← Bytes.slice_slice a.bytes _ _ _ _ inside, row, Bytes.slice_slice _ _ _ _ _ inside]
  refine ⟨(a.indexEntryAt index).reserved, ?_⟩
  unfold indexEntryAt IndexEntry.ofBytes
  rw [field 0 (by decide), field 8 (by decide), field 16 (by decide), field 24 (by decide)]

/-- **What one entry depends on.**  Where two buffers of the same length agree on a row, up
to the reserved word, and on its block, they give the same result. -/
theorem entryAt_eq_of_agree (length : a.bytes.length = b.bytes.length)
    (row : a.bytes.slice (tableEnd index) 32 = b.bytes.slice (tableEnd index) 32)
    (block : ∀ span, (a.indexEntryAt index).span? a.bytes.length = some span →
      a.bytes.within span = b.bytes.within span) :
    a.entryAt index = b.entryAt index := by
  obtain ⟨word, entry⟩ := indexEntryAt_eq_of_row row
  -- neither the place of a block nor the judgement on it asks for the reserved word
  have place : (a.indexEntryAt index).span? a.bytes.length =
      (b.indexEntryAt index).span? b.bytes.length := by
    rw [entry, length]
    rfl
  unfold entryAt
  simp only
  rw [← place]
  cases found : (a.indexEntryAt index).span? a.bytes.length with
  | none =>
      rw [entry]
  | some span =>
      simp only
      rw [block span found, entry]
      rfl

end Reader

/-! ## The parts of a record -/

/-- The buffers have the same length, and the same bytes outside some places. -/
structure Bytes.ChangedWithin (buffer changed : Bytes) (places : Nat → Prop) : Prop where
  length_eq : changed.length = buffer.length
  same : ∀ place, ¬ places place → changed[place]? = buffer[place]?

theorem Bytes.ChangedWithin.refl (buffer : Bytes) (places : Nat → Prop) :
    buffer.ChangedWithin buffer places :=
  ⟨rfl, fun _ _ => rfl⟩

theorem Bytes.ChangedWithin.slice_eq {buffer changed : Bytes} {places : Nat → Prop}
    (within : buffer.ChangedWithin changed places) {start length : Nat}
    (apart : ∀ place, start ≤ place → place < start + length → ¬ places place) :
    changed.slice start length = buffer.slice start length :=
  slice_eq_of_getElem? fun place from_start to_stop =>
    within.same place (apart place from_start to_stop)

/-- A byte replaced in one of the places is a change there. -/
theorem Bytes.ChangedWithin.set {buffer changed : Bytes} {places : Nat → Prop}
    (within : buffer.ChangedWithin changed places) {place : Nat} (b : UInt8)
    (inside : places place) : buffer.ChangedWithin (changed.set place b) places where
  length_eq := by
    rw [List.length_set, within.length_eq]
  same := by
    intro other outside
    have apart : place ≠ other := by
      rintro rfl
      exact outside inside
    rw [List.getElem?_set_ne apart, within.same other outside]

namespace Layout

/-- The places of record `index`, and those that belong to no record: its row, its block,
and the reserved words of all rows. -/
inductive Exposed (records : List FileRecord) (index place : Nat) : Prop
  | row (from_start : tableEnd index ≤ place) (to_stop : place < tableEnd (index + 1))
  | block (from_start : blockStart records index ≤ place)
      (to_stop : place < blockStart records (index + 1))
  | reserved (row : Nat) (inTable : row < records.length)
      (from_start : tableEnd row + 32 ≤ place) (to_stop : place < tableEnd (row + 1))

variable {records : List FileRecord} {index other place : Nat}

theorem not_exposed_of_header (header : place < 24) : ¬ Exposed records index place := by
  have table := tableEnd_length_le_blockStart records index
  rintro (⟨from_start, -⟩ | ⟨from_start, -⟩ | ⟨row, -, from_start, -⟩)
  all_goals
    unfold tableEnd headerSize at *
    omega

/-- The row of another record is not exposed, its reserved word apart. -/
theorem not_exposed_of_row (inside : other < records.length) (apart : other ≠ index)
    (from_start : tableEnd other ≤ place) (to_stop : place < tableEnd other + 32) :
    ¬ Exposed records index place := by
  have table := tableEnd_length_le_blockStart records index
  rintro (⟨_, _⟩ | ⟨_, -⟩ | ⟨row, -, _, _⟩)
  all_goals
    unfold tableEnd entrySize at *
    omega

/-- The block of another record is not exposed. -/
theorem not_exposed_of_block (inside : index < records.length) (apart : other ≠ index)
    (from_start : blockStart records other ≤ place)
    (to_stop : place < blockStart records (other + 1)) : ¬ Exposed records index place := by
  -- rows end where the first block starts, or before
  have behind : ∀ {row}, row < records.length → tableEnd (row + 1) ≤ place := fun inTable =>
    calc tableEnd (_ + 1)
      _ ≤ tableEnd records.length := tableEnd_mono inTable
      _ ≤ blockStart records other := tableEnd_length_le_blockStart records other
      _ ≤ place := from_start
  rintro (⟨-, inRow⟩ | ⟨from_start', to_stop'⟩ | ⟨row, inTable, -, inRow⟩)
  · exact Nat.not_le_of_lt inRow (behind inside)
  · rcases Nat.lt_or_gt_of_ne apart with earlier | later
    · have ordered : blockStart records (other + 1) ≤ blockStart records index :=
        blockStart_mono earlier
      omega
    · have ordered : blockStart records (index + 1) ≤ blockStart records other :=
        blockStart_mono later
      omega
  · exact Nat.not_le_of_lt inRow (behind inTable)

/-! ## Damage to a record -/

/-- Entry `index` of an archive is record `index`, with its digest and place. -/
theorem entryAt_encode (fits : FitsWords records) {reader : Reader}
    (laidOut : reader.bytes = encode records) (inside : index < records.length) :
    reader.entryAt index = .ok {
      path := records[index].path
      data := records[index].data
      checksum := Djb2.checksum records[index].block
      offset := blockStart records index } := by
  have entry := indexEntryAt_encode laidOut inside
  have row := row_entryAt fits inside
  have place := span?_entryAt fits inside
  generalize records[index].entryAt (blockStart records index) = written at *
  have digest : Djb2.checksum records[index].block = written.checksum :=
    (congrArg Row.checksum row).symm
  have offset : written.offset.toInt = blockStart records index := congrArg Row.offset row
  have pathLength : written.pathLength.toInt.toNat = records[index].storedPathBytes.length :=
    congrArg (fun row => row.pathLength.toNat) row
  have path : records[index].block.take written.pathLength.toInt.toNat =
      Utf8.encode records[index].storedPath := by
    rw [pathLength]
    exact List.take_left
  have data : records[index].block.drop written.pathLength.toInt.toNat =
      records[index].data := by
    rw [pathLength]
    exact List.drop_left
  unfold Reader.entryAt
  simp only [entry, laidOut, place, within_block inside]
  rw [IndexEntry.judge_of_text digest (Utf8.decode_eq_ok_iff.mpr path), data, digest, offset,
    Int.toNat_natCast, FileRecord.storedPath, withoutLeadingSlash_slash]

/-- Damage to one record leaves the header as it was, and so the archive opens. -/
theorem opens_of_changedWithin (fits : FitsWords records) {changed : Bytes}
    (within : (encode records).ChangedWithin changed (Exposed records index)) :
    changed.Opens ∧ changed.indexCount = records.length := by
  have header : changed.slice 0 24 = (encode records).slice 0 24 :=
    within.slice_eq fun place _ header => not_exposed_of_header (by omega)
  have same : (encode records).SameFront changed 24 := header
  have opens := opens_encode fits
  have table := opens.table_le
  have declared := opens.totalSize_le
  rw [← within.length_eq] at table declared
  exact ⟨same.opens (Nat.le_refl 24) opens table declared,
    (same.indexCount_eq (Nat.le_refl 24)).trans (indexCount_encode fits)⟩

/-- **Damage to one record leaves every other one as it was.** -/
theorem entryAt_of_changedWithin (fits : FitsWords records) (damaged : index < records.length)
    {reader : Reader}
    (within : (encode records).ChangedWithin reader.bytes (Exposed records index))
    (inside : other < records.length) (apart : other ≠ index) :
    reader.entryAt other = .ok {
      path := records[other].path
      data := records[other].data
      checksum := Djb2.checksum records[other].block
      offset := blockStart records other } := by
  obtain ⟨original, opened⟩ := (Reader.exists_ofBytes_iff_opens _).mpr (opens_encode fits)
  have laidOut := Reader.bytes_of_ofBytes opened
  rw [← entryAt_encode fits laidOut inside]
  refine (Reader.entryAt_eq_of_agree ?_ ?_ ?_).symm
  · rw [laidOut, within.length_eq]
  · rw [laidOut]
    exact (within.slice_eq fun _ => not_exposed_of_row inside apart).symm
  · intro span found
    rw [indexEntryAt_encode laidOut inside, laidOut, span?_entryAt fits inside] at found
    obtain rfl := Option.some.inj found
    have ordered : blockStart records other ≤ blockStart records (other + 1) :=
      blockStart_mono (Nat.le_succ other)
    rw [laidOut, Bytes.within, Bytes.within]
    refine (within.slice_eq fun _ from_start to_stop => ?_).symm
    exact not_exposed_of_block damaged apart from_start (by simp only at to_stop; omega)

end Layout

/-- **Damage stays local.**  What is read for one entry is the same in two buffers that agree
on its row, up to the reserved word, and on its block; and so any damage to one record of an
archive, and to reserved words, leaves all other entries as they were laid out. -/
theorem entryAt?_eq_of_agree :
    (∀ (a b : Reader) (index : Nat), a.bytes.length = b.bytes.length →
        index < a.count → index < b.count →
        a.bytes.slice (tableEnd index) 32 = b.bytes.slice (tableEnd index) 32 →
        (∀ span, (a.indexEntryAt index).span? a.bytes.length = some span →
          a.bytes.within span = b.bytes.within span) →
        a.entryAt? index = b.entryAt? index) ∧
      ∀ (records : List FileRecord) (index : Nat) (changed : Bytes),
        Layout.totalSize records < 2 ^ 63 → index < records.length →
        (Layout.encode records).ChangedWithin changed (Layout.Exposed records index) →
        ∃ reader, Reader.ofBytes changed = .ok reader ∧ reader.count = records.length ∧
          ∀ (other : Nat) (inside : other < records.length), other ≠ index →
            reader.entryAt? other = some (.ok {
              path := records[other].path
              data := records[other].data
              checksum := Djb2.checksum records[other].block
              offset := Layout.blockStart records other }) := by
  constructor
  · intro a b index length inA inB row block
    rw [Reader.entryAt?, Reader.entryAt?, if_pos inA, if_pos inB,
      Reader.entryAt_eq_of_agree length row block]
  · intro records index changed fits damaged within
    have words := Layout.fitsWords_iff.mpr fits
    obtain ⟨opens, counted⟩ := Layout.opens_of_changedWithin words within
    obtain ⟨reader, opened⟩ := (Reader.exists_ofBytes_iff_opens changed).mpr opens
    obtain rfl := Reader.bytes_of_ofBytes opened
    have count : reader.count = records.length := by
      rw [reader.count_eq, counted, Int.toNat_natCast]
    refine ⟨reader, opened, count, ?_⟩
    intro other inside apart
    rw [Reader.entryAt?, if_pos (by omega),
      Layout.entryAt_of_changedWithin words damaged within inside apart]

/-- One row, whose block is the magic number at the front, and more bytes behind it. -/
def selfOverlapping (count declared : Int64) (word : UInt32) : Bytes :=
  Header.toBytes { indexCount := count, totalSize := declared } ++
    (IndexEntry.toBytes {
      checksum := Djb2.checksum Magic.archive.bytes
      offset := 0
      length := 8
      pathLength := 8
      reserved := word } ++ List.replicate 36 word.toUInt8)

/-- Three files, of which the one in the middle will be damaged. -/
def threeFiles : List FileRecord :=
  [⟨"a", 1, [0x01]⟩, ⟨"b", 1, [0x02]⟩, ⟨"c", 1, [0x03]⟩]

/-- A byte of the row in the middle and one of its block were replaced, and bytes of the
reserved words in the rows beside it. -/
def damagedMiddle : Bytes :=
  ((((Layout.encode threeFiles).set 57 0xFF).set 70 0x80).set 136 0xFF).set 131 0x01

/-- Two buffers with other counts, declared sizes, reserved words and bytes behind the row
give the same first entry, which overlaps the header; and the damaged archive still gives
the files around the damage. -/
theorem entryAt?_selfOverlapping_damagedMiddle :
    (∃ a b, Reader.ofBytes (selfOverlapping 1 0 0) = .ok a ∧
      Reader.ofBytes (selfOverlapping 2 96 7) = .ok b ∧ a.entryAt? 0 = b.entryAt? 0) ∧
      ∃ reader, Reader.ofBytes damagedMiddle = .ok reader ∧
        reader.entryAt? 0 = some (.ok {
          path := "a"
          data := [0x01]
          checksum := Djb2.checksum [0x2F, 0x61, 0x01]
          offset := 132 }) ∧
        reader.entryAt? 2 = some (.ok {
          path := "c"
          data := [0x03]
          checksum := Djb2.checksum [0x2F, 0x63, 0x03]
          offset := 138 }) := by
  constructor
  · obtain ⟨a, openedA⟩ := (Reader.exists_ofBytes_iff_opens (selfOverlapping 1 0 0)).mpr
      (by constructor <;> decide)
    obtain ⟨b, openedB⟩ := (Reader.exists_ofBytes_iff_opens (selfOverlapping 2 96 7)).mpr
      (by constructor <;> decide)
    have bytesA := Reader.bytes_of_ofBytes openedA
    have bytesB := Reader.bytes_of_ofBytes openedB
    refine ⟨a, b, openedA, openedB, entryAt?_eq_of_agree.1 a b 0 ?_ ?_ ?_ ?_ ?_⟩
    · rw [bytesA, bytesB]
      decide
    · rw [a.count_eq, bytesA]
      decide
    · rw [b.count_eq, bytesB]
      decide
    · rw [bytesA, bytesB]
      decide
    · intro span found
      rw [Reader.indexEntryAt, bytesA] at found
      rw [bytesA, bytesB]
      have place : (IndexEntry.ofBytes ((selfOverlapping 1 0 0).slice (tableEnd 0)
          entrySize)).span? (selfOverlapping 1 0 0).length = some ⟨0, 8⟩ := by decide
      obtain rfl := Option.some.inj (place.symm.trans found)
      decide
  · have within : (Layout.encode threeFiles).ChangedWithin damagedMiddle
        (Layout.Exposed threeFiles 1) := by
      refine ((((Bytes.ChangedWithin.refl _ _).set 0xFF ?_).set 0x80 ?_).set 0xFF ?_).set 0x01 ?_
      · exact .reserved 0 (by decide) (by decide) (by decide)
      · exact .row (by decide) (by decide)
      · exact .block (by decide) (by decide)
      · exact .reserved 2 (by decide) (by decide) (by decide)
    obtain ⟨reader, opened, -, others⟩ :=
      entryAt?_eq_of_agree.2 threeFiles 1 damagedMiddle (by decide) (by decide) within
    refine ⟨reader, opened, (others 0 (by decide) (by decide)).trans ?_,
      (others 2 (by decide) (by decide)).trans ?_⟩
    · cbv
    · cbv

end FlatArchive
