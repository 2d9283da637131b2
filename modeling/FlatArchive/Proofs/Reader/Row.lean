import FlatArchive.Proofs.Bytes.Signed
import FlatArchive.Proofs.Bytes.Slices
import FlatArchive.Proofs.Verdict
import FlatArchive.Reader.Basic
import FlatArchive.Text.Utf8.Lemmas

/-!
# What a row of the table stands for

A row of the index table is four numbers in 36 bytes, whoever wrote them.  This
module says what they mean without the reader: `Row.Denotes` relates a row to
the record that it stands for, and `Row.Defect` to the report on it when it
stands for none.  Numbers are integers without bounds, and text is what
`Utf8.encode` writes, so neither definition computes as the reader does.

A row stands for one record at most, is reported in one way at most, and not
both.  `Reader.entryAt` always does one of the two (`entryAt_cases`), and so the
two definitions describe its judgement exactly (`entryAt_decides`).
-/

namespace FlatArchive

/-! ## Rows -/

/-- The signed number in the eight bytes at `place`. -/
def Bytes.signedAt (buffer : Bytes) (place : Nat) : Int :=
  LittleEndian.signed (buffer.slice place 8)

/-- The numbers in a row of the index table. -/
structure Row where
  checksum : UInt64
  offset : Int
  length : Int
  pathLength : Int

/-- The row in place `index`: what the 36 bytes at `24 + 36 * index` say. -/
def Bytes.row (buffer : Bytes) (index : Nat) : Row where
  checksum := LittleEndian.toUInt64 (buffer.slice (tableEnd index) 8)
  offset := buffer.signedAt (tableEnd index + 8)
  length := buffer.signedAt (tableEnd index + 16)
  pathLength := buffer.signedAt (tableEnd index + 24)

namespace Row

/-- The row describes a block inside a buffer of `size` bytes, and a path inside
the block. -/
structure InBounds (row : Row) (size : Nat) : Prop where
  offset_nonneg : 0 ≤ row.offset
  pathLength_nonneg : 0 ≤ row.pathLength
  pathLength_le : row.pathLength ≤ row.length
  stop_le : row.offset + row.length ≤ size

/-- The block of the row. -/
def block (row : Row) (buffer : Bytes) : Bytes :=
  buffer.slice row.offset.toNat row.length.toNat

/-- The part of the block that is the stored path. -/
def pathBytes (row : Row) (buffer : Bytes) : Bytes :=
  (row.block buffer).take row.pathLength.toNat

/-- The part of the block that is content. -/
def content (row : Row) (buffer : Bytes) : Bytes :=
  (row.block buffer).drop row.pathLength.toNat

end Row

/-- `path` is the text `stored` without one leading slash, if it has one. -/
def IsPathOf (stored path : String) : Prop :=
  stored = "/" ++ path ∨ (path = stored ∧ ∀ rest, stored ≠ "/" ++ rest)

namespace Row

/-- The row is in order and stands for the record. -/
structure Denotes (row : Row) (buffer : Bytes) (record : FileRecord) : Prop where
  inBounds : row.InBounds buffer.length
  digest : Djb2.checksum (row.block buffer) = row.checksum
  path : ∃ stored, row.pathBytes buffer = Utf8.encode stored ∧ IsPathOf stored record.path
  data : record.data = row.content buffer
  size : record.size.toNat = record.data.length

/-- The report on a row, in place `index`, that is not in order.  The digest
counts only for a block inside the buffer, and the path only if the digest is
right. -/
inductive Defect (row : Row) (buffer : Bytes) (index : Nat) : ArchiveError → Prop
  | outOfBounds (outside : ¬ row.InBounds buffer.length) :
      Defect row buffer index
        (.entryOutOfBounds index row.offset row.length row.pathLength)
  | digest (inBounds : row.InBounds buffer.length)
      (differs : Djb2.checksum (row.block buffer) ≠ row.checksum) :
      Defect row buffer index
        (.checksumMismatch index row.checksum (Djb2.checksum (row.block buffer)))
  | path (inBounds : row.InBounds buffer.length)
      (digest : Djb2.checksum (row.block buffer) = row.checksum)
      (noText : ∀ stored, row.pathBytes buffer ≠ Utf8.encode stored)
      (cause : Utf8Error) (told : Utf8.decode (row.pathBytes buffer) = .error cause) :
      Defect row buffer index (.invalidPath index cause)

end Row

/-! ## Paths without their slash -/

theorem toList_slash_append (path : String) :
    ("/" ++ path).toList = '/' :: path.toList := by
  rw [String.toList_append]
  rfl

/-- A slash in front is taken away, and only this one. -/
theorem withoutLeadingSlash_slash (path : String) :
    withoutLeadingSlash ("/" ++ path) = path := by
  rw [withoutLeadingSlash, toList_slash_append]
  exact String.ofList_toList

theorem withoutLeadingSlash_of_ne {stored : String}
    (bare : ∀ rest, stored ≠ "/" ++ rest) : withoutLeadingSlash stored = stored := by
  unfold withoutLeadingSlash
  split
  · next rest chars =>
    -- a text whose first character is a slash is one behind a slash
    have slashed : stored = "/" ++ String.ofList rest := by
      apply String.toList_injective
      rw [chars, toList_slash_append, String.toList_ofList]
    exact absurd slashed (bare _)
  · rfl

/-- The reader's way to a path is the one that is described. -/
theorem isPathOf_iff {stored path : String} :
    IsPathOf stored path ↔ path = withoutLeadingSlash stored := by
  constructor
  · rintro (rfl | ⟨rfl, bare⟩)
    · exact (withoutLeadingSlash_slash path).symm
    · exact (withoutLeadingSlash_of_ne bare).symm
  · rintro rfl
    by_cases slashed : ∃ rest, stored = "/" ++ rest
    · obtain ⟨rest, rfl⟩ := slashed
      left
      rw [withoutLeadingSlash_slash]
    · have bare : ∀ rest, stored ≠ "/" ++ rest := fun rest same => slashed ⟨rest, same⟩
      exact Or.inr ⟨withoutLeadingSlash_of_ne bare, bare⟩

/-! ## One verdict on a row -/

/-- Different texts are written in different bytes. -/
theorem Utf8.encode_injective {a b : String} (same : encode a = encode b) : a = b := by
  have read : decode (encode b) = .ok a := decode_eq_ok_iff.mpr same.symm
  rw [decode_eq_ok_iff.mpr rfl] at read
  exact (Except.ok.inj read).symm

namespace Row

variable {row : Row} {buffer : Bytes}

/-- A row stands for one record at most. -/
theorem Denotes.unique {a b : FileRecord} (first : row.Denotes buffer a)
    (second : row.Denotes buffer b) : a = b := by
  obtain ⟨storedA, formA, pathA⟩ := first.path
  obtain ⟨storedB, formB, pathB⟩ := second.path
  obtain rfl : storedA = storedB := Utf8.encode_injective (formA.symm.trans formB)
  have path : a.path = b.path :=
    (isPathOf_iff.mp pathA).trans (isPathOf_iff.mp pathB).symm
  have data : a.data = b.data := first.data.trans second.data.symm
  have size : a.size = b.size := by
    apply UInt64.toNat_inj.mp
    rw [first.size, second.size, data]
  exact FileRecord.ext path size data

theorem Denotes.not_defect {record : FileRecord} {index : Nat} {e : ArchiveError}
    (denotes : row.Denotes buffer record) : ¬ row.Defect buffer index e := by
  rintro (outside | ⟨-, differs⟩ | ⟨-, -, noText, -, -⟩)
  · exact outside denotes.inBounds
  · exact differs denotes.digest
  · obtain ⟨stored, form, -⟩ := denotes.path
    exact noText stored form

/-- A row has one report at most. -/
theorem Defect.unique {index : Nat} {e e' : ArchiveError}
    (first : row.Defect buffer index e) (second : row.Defect buffer index e') :
    e = e' := by
  cases first with
  | outOfBounds outside =>
      cases second with
      | outOfBounds => rfl
      | digest inBounds => exact absurd inBounds outside
      | path inBounds => exact absurd inBounds outside
  | digest inBounds differs =>
      cases second with
      | outOfBounds outside => exact absurd inBounds outside
      | digest => rfl
      | path _ digest => exact absurd digest differs
  | path inBounds digest _ cause told =>
      cases second with
      | outOfBounds outside => exact absurd inBounds outside
      | digest _ differs => exact absurd digest differs
      | path _ _ _ cause' told' =>
          rw [Except.error.inj (told.symm.trans told')]

end Row

/-! ## The judgement of the reader -/

/-- The row that an index entry was read from. -/
def IndexEntry.row (entry : IndexEntry) : Row where
  checksum := entry.checksum
  offset := entry.offset.toInt
  length := entry.length.toInt
  pathLength := entry.pathLength.toInt

/-- A word that was read has the value of the number in its place. -/
theorem Bytes.toInt_toInt64_slice (buffer : Bytes) (place : Nat)
    (inside : place + 8 ≤ buffer.length) :
    (LittleEndian.toInt64 (buffer.slice place 8)).toInt = buffer.signedAt place :=
  LittleEndian.toInt_toInt64 _ (Bytes.length_slice buffer place 8 inside)

/-- An entry read from its place in the table has the numbers of the row in that place. -/
theorem IndexEntry.row_ofBytes_slice (buffer : Bytes) (index : Nat)
    (inside : tableEnd (index + 1) ≤ buffer.length) :
    (IndexEntry.ofBytes (buffer.slice (tableEnd index) entrySize)).row =
      buffer.row index := by
  have field : ∀ place, place + 8 ≤ entrySize →
      (LittleEndian.toInt64
        ((buffer.slice (tableEnd index) entrySize).slice place 8)).toInt =
          buffer.signedAt (tableEnd index + place) := by
    intro place inRow
    rw [Bytes.slice_slice _ _ _ _ _ inRow]
    apply Bytes.toInt_toInt64_slice
    unfold tableEnd entrySize at *
    omega
  have digest : (buffer.slice (tableEnd index) entrySize).slice 0 8 =
      buffer.slice (tableEnd index) 8 :=
    Bytes.slice_slice _ _ _ _ _ (by decide)
  rw [IndexEntry.row, IndexEntry.ofBytes, Bytes.row, digest, field 8 (by decide),
    field 16 (by decide), field 24 (by decide)]

/-- A row inside the bounds has a block from its offset on, as long as it says. -/
theorem IndexEntry.span?_of_inBounds {entry : IndexEntry} {size : Nat}
    (inBounds : entry.row.InBounds size) :
    entry.span? size = some
      ⟨entry.row.offset.toNat, (entry.row.offset + entry.row.length).toNat⟩ :=
  if_pos ⟨inBounds.offset_nonneg, inBounds.pathLength_nonneg,
    inBounds.pathLength_le, inBounds.stop_le⟩

/-- A row outside the bounds has no block. -/
theorem IndexEntry.span?_of_not_inBounds {entry : IndexEntry} {size : Nat}
    (outside : ¬ entry.row.InBounds size) : entry.span? size = none := by
  apply if_neg
  rintro ⟨offset, pathLength, path, stop⟩
  exact outside ⟨offset, pathLength, path, stop⟩

/-- The bytes of the span are the block of the row. -/
theorem Row.within_span {row : Row} {buffer : Bytes}
    (inBounds : row.InBounds buffer.length) :
    buffer.within ⟨row.offset.toNat, (row.offset + row.length).toNat⟩ =
      row.block buffer := by
  have offset := inBounds.offset_nonneg
  have pathLength := inBounds.pathLength_nonneg
  have path := inBounds.pathLength_le
  rw [Bytes.within, Row.block]
  congr 1
  simp only
  omega

/-- A block inside a buffer has the length that its row gives. -/
theorem Row.InBounds.length_block {row : Row} {buffer : Bytes}
    (inBounds : row.InBounds buffer.length) :
    (row.block buffer).length = row.length.toNat := by
  have offset := inBounds.offset_nonneg
  have pathLength := inBounds.pathLength_nonneg
  have path := inBounds.pathLength_le
  have stop := inBounds.stop_le
  apply Bytes.length_slice
  omega

namespace IndexEntry

variable {entry : IndexEntry} {index : Nat} {block : Bytes}

/-- The digest is looked at first. -/
theorem judge_of_digest_ne (differs : Djb2.checksum block ≠ entry.checksum) :
    entry.judge index block =
      .error (.checksumMismatch index entry.checksum (Djb2.checksum block)) :=
  if_pos differs

/-- The path is looked at if the digest is right. -/
theorem judge_of_not_text {cause : Utf8Error}
    (digest : Djb2.checksum block = entry.checksum)
    (told : Utf8.decode (block.take entry.pathLength.toInt.toNat) = .error cause) :
    entry.judge index block = .error (.invalidPath index cause) := by
  rw [judge, if_neg (not_not_intro digest), told]

/-- If digest and path are right, there is a file. -/
theorem judge_of_text {stored : String}
    (digest : Djb2.checksum block = entry.checksum)
    (told : Utf8.decode (block.take entry.pathLength.toInt.toNat) = .ok stored) :
    entry.judge index block = .ok {
      path := withoutLeadingSlash stored
      data := block.drop entry.pathLength.toInt.toNat
      checksum := entry.checksum
      offset := entry.offset.toInt.toNat } := by
  rw [judge, if_neg (not_not_intro digest), told]

/-- What a file tells of its place and its digest is what the row says. -/
theorem of_judge {file : Entry} (judged : entry.judge index block = .ok file) :
    file.checksum = entry.checksum ∧ file.offset = entry.offset.toInt.toNat := by
  unfold judge at judged
  dsimp only at judged
  split at judged
  · cases judged
  · split at judged
    · cases judged
    · cases judged
      exact ⟨rfl, rfl⟩

end IndexEntry

/-- The size of a record made from a part of a block is exact: the length of the
block was given by a signed word. -/
theorem Row.toNat_size_ofFile {entry : IndexEntry} {buffer : Bytes} (path : String)
    (inBounds : entry.row.InBounds buffer.length) :
    (FileRecord.ofFile path (entry.row.content buffer)).size.toNat =
      (entry.row.content buffer).length := by
  have word : entry.row.length.toNat < UInt64.size := by
    have bound := entry.length.toInt_lt
    have same : entry.row.length = entry.length.toInt := rfl
    rw [same]
    unfold UInt64.size
    omega
  apply UInt64.toNat_ofNat_of_lt'
  rw [Row.content, List.length_drop, inBounds.length_block]
  omega

namespace Reader

variable {reader : Reader} {index : Nat}

/-- The table of a reader lies inside its buffer, row by row. -/
theorem tableEnd_succ_le (inTable : index < reader.count) :
    tableEnd (index + 1) ≤ reader.bytes.length := by
  have table := reader.tableEnd_le
  unfold tableEnd entrySize at *
  unfold count at inTable
  omega

/-- The reader reads the row in the place that it was asked for. -/
theorem row_indexEntryAt (inTable : index < reader.count) :
    (reader.indexEntryAt index).row = reader.bytes.row index :=
  IndexEntry.row_ofBytes_slice _ _ (tableEnd_succ_le inTable)

/-- **The reader reports a row or gives the record that it stands for.** -/
theorem entryAt_cases (inTable : index < reader.count) :
    (∃ entry, reader.entryAt index = .ok entry ∧
        (reader.bytes.row index).Denotes reader.bytes entry.toRecord) ∨
      (∃ e, reader.entryAt index = .error e ∧
        (reader.bytes.row index).Defect reader.bytes index e) := by
  rw [← row_indexEntryAt inTable, entryAt]
  generalize reader.indexEntryAt index = entry
  generalize reader.bytes = buffer
  -- in the order of the checks, the last of which is the decoding of the path
  by_cases inBounds : entry.row.InBounds buffer.length
  · simp only [IndexEntry.span?_of_inBounds inBounds, Row.within_span inBounds]
    by_cases digest : Djb2.checksum (entry.row.block buffer) = entry.row.checksum
    · cases told : Utf8.decode (entry.row.pathBytes buffer) with
      | error cause =>
          right
          refine ⟨_, IndexEntry.judge_of_not_text digest told,
            .path inBounds digest ?_ cause told⟩
          intro stored form
          rw [Utf8.decode_eq_ok_iff.mpr form] at told
          cases told
      | ok stored =>
          left
          exact ⟨_, IndexEntry.judge_of_text digest told, {
            inBounds := inBounds
            digest := digest
            path := ⟨stored, Utf8.decode_eq_ok_iff.mp told, isPathOf_iff.mpr rfl⟩
            data := rfl
            size := Row.toNat_size_ofFile _ inBounds }⟩
    · right
      exact ⟨_, IndexEntry.judge_of_digest_ne digest, .digest inBounds digest⟩
  · right
    simp only [IndexEntry.span?_of_not_inBounds inBounds]
    exact ⟨_, rfl, .outOfBounds inBounds⟩

theorem of_entryAt {entry : Entry} (inTable : index < reader.count)
    (judged : reader.entryAt index = .ok entry) :
    (reader.bytes.row index).Denotes reader.bytes entry.toRecord ∧
      (entry.offset : Int) = (reader.bytes.row index).offset ∧
      entry.checksum = (reader.bytes.row index).checksum := by
  rcases entryAt_cases inTable with ⟨entry', judged', denotes⟩ | ⟨e, failed, -⟩
  · obtain rfl : entry' = entry := Except.ok.inj (judged'.symm.trans judged)
    refine ⟨denotes, ?_⟩
    have start := denotes.inBounds.offset_nonneg
    rw [← row_indexEntryAt inTable] at start ⊢
    unfold entryAt at judged
    dsimp only at judged
    split at judged
    · cases judged
    · obtain ⟨checksum, offset⟩ := IndexEntry.of_judge judged
      exact ⟨by rw [offset]; exact Int.toNat_of_nonneg start, checksum⟩
  · cases failed.symm.trans judged

/-- The judgement of the reader is described exactly. -/
theorem entryAt_decides (inTable : index < reader.count) :
    Decides ((reader.entryAt index).map Entry.toRecord)
      ((reader.bytes.row index).Denotes reader.bytes)
      ((reader.bytes.row index).Defect reader.bytes index) := by
  apply Decides.of_cases
  · rcases entryAt_cases inTable with ⟨entry, judged, denotes⟩ | ⟨e, judged, defect⟩
    · rw [judged]
      exact Or.inl ⟨_, rfl, denotes⟩
    · rw [judged]
      exact Or.inr ⟨e, rfl, defect⟩
  · exact Row.Denotes.unique
  · exact Row.Defect.unique
  · exact Row.Denotes.not_defect

end Reader

end FlatArchive
