import FlatArchive.Format.IndexEntry
import FlatArchive.Proofs.Bytes.Slices
import Mathlib.Data.Set.Function

/-!
# Fields are found where they were written

Headers and index entries are fields of fixed width, one after the other.  A
reader takes each field from its place, and the place is the sum of the widths
before it.  Whatever follows the written form does not matter.

Two equivalences say what is read: an entry is read from a buffer exactly if the
buffer begins with its written form (`IndexEntry.parse_eq_ok_iff`), and a header
exactly if it carries the mark of the format too (`Header.parse_eq_ok_iff`).
Together with the widths they make entries and headers one-to-one with the byte
strings of their size (`parse_inverts_toBytes`).
-/

namespace FlatArchive

open LittleEndian

namespace IndexEntry

variable (entry : IndexEntry) (rest : Bytes)

/-- An entry is read back from the front of a buffer that begins with it. -/
theorem ofBytes_toBytes_append : ofBytes (entry.toBytes ++ rest) = entry := by
  rw [ofBytes, toBytes]
  simp [Bytes.slice_append_of_le, Bytes.slice_append_front]

theorem ofBytes_toBytes : ofBytes entry.toBytes = entry := by
  simpa using ofBytes_toBytes_append entry []

/-- The bytes that an entry was read from are written again. -/
theorem toBytes_ofBytes {bytes : Bytes} (width : bytes.length = entrySize) :
    (ofBytes bytes).toBytes = bytes := by
  unfold entrySize at width
  have field : ∀ start length, start + length ≤ 36 →
      (bytes.slice start length).length = length :=
    fun start length inside => Bytes.length_slice bytes start length (by omega)
  rw [toBytes, ofBytes]
  simp only [ofUInt64_toUInt64 _ (field 0 8 (by decide)),
    ofInt64_toInt64 _ (field 8 8 (by decide)), ofInt64_toInt64 _ (field 16 8 (by decide)),
    ofInt64_toInt64 _ (field 24 8 (by decide)), ofUInt32_toUInt32 _ (field 32 4 (by decide))]
  -- the fields stand side by side, and together they are all there is
  rw [Bytes.slice_append_slice bytes 24 8 4, Bytes.slice_append_slice bytes 16 8 12,
    Bytes.slice_append_slice bytes 8 8 20, Bytes.slice_append_slice bytes 0 8 28]
  exact List.take_of_length_le (Nat.le_of_eq width)

/-- **What is read as an entry**: exactly the front of a buffer, if that is the written form
of the entry. -/
theorem parse_eq_ok_iff {buffer : Bytes} {entry : IndexEntry} :
    parse buffer = .ok entry ↔
      entrySize ≤ buffer.length ∧ entry.toBytes = buffer.take entrySize := by
  have whole : Checked.slice buffer 0 entrySize =
      if entrySize ≤ buffer.length then .ok (buffer.take entrySize) else .error .outOfRange := by
    rw [Checked.slice, Nat.zero_add]
    rfl
  rw [parse, whole]
  split
  · next inside =>
    have width : (buffer.take entrySize).length = entrySize := List.length_take_of_le inside
    constructor
    · intro read
      obtain rfl : ofBytes (buffer.take entrySize) = entry := Except.ok.inj read
      exact ⟨inside, toBytes_ofBytes width⟩
    · rintro ⟨-, written⟩
      rw [← written, Except.map, ofBytes_toBytes]
  · next short =>
    constructor
    · intro read
      cases read
    · rintro ⟨inside, -⟩
      exact absurd inside short

/-- Different entries are written differently. -/
theorem toBytes_injective : Function.Injective toBytes := by
  intro entry other same
  rw [← ofBytes_toBytes entry, same, ofBytes_toBytes]

end IndexEntry

namespace Header

variable (header : Header) (rest : Bytes)

/-- The bytes that a header was read from are written again. -/
theorem toBytes_of_fields {buffer : Bytes} (available : 24 ≤ buffer.length)
    (magic : buffer.slice 0 8 = header.magic.bytes)
    (indexCount : toInt64 (buffer.slice 8 8) = header.indexCount)
    (totalSize : toInt64 (buffer.slice 16 8) = header.totalSize) :
    header.toBytes = buffer.slice 0 24 := by
  have field : ∀ start, start + 8 ≤ 24 → (buffer.slice start 8).length = 8 :=
    fun start inside => Bytes.length_slice buffer start 8 (by omega)
  rw [toBytes, ← magic, ← indexCount, ← totalSize, ofInt64_toInt64 _ (field 8 (by decide)),
    ofInt64_toInt64 _ (field 16 (by decide)), Bytes.slice_append_slice buffer 8 8 8,
    Bytes.slice_append_slice buffer 0 8 16]

theorem slice_magic : (header.toBytes ++ rest).slice 0 8 = header.magic.bytes := by
  rw [toBytes]
  simp [Bytes.slice_append_front, header.magic.length_bytes]

theorem slice_indexCount :
    (header.toBytes ++ rest).slice 8 8 = ofInt64 header.indexCount := by
  rw [toBytes]
  simp [Bytes.slice_append_of_le, Bytes.slice_append_front, header.magic.length_bytes]

theorem slice_totalSize :
    (header.toBytes ++ rest).slice 16 8 = ofInt64 header.totalSize := by
  rw [toBytes]
  simp [Bytes.slice_append_of_le, Bytes.slice_append_front, header.magic.length_bytes]

/-! ## Reading a header -/

variable {header} {buffer : Bytes}

theorem parse_of_short (short : buffer.length < 24) :
    parse buffer = .error (.truncated 24 buffer.length) :=
  if_pos short

theorem parse_of_foreign (header : 24 ≤ buffer.length)
    (foreign : buffer.slice 0 8 ≠ Magic.archive.bytes) :
    parse buffer = .error (.invalidMagic (buffer.slice 0 8)) := by
  rw [parse, headerSize, if_neg (Nat.not_lt.mpr header), if_pos foreign]

theorem parse_of_magic (header : 24 ≤ buffer.length)
    (magic : buffer.slice 0 8 = Magic.archive.bytes) :
    parse buffer = .ok {
      indexCount := LittleEndian.toInt64 (buffer.slice 8 8)
      totalSize := LittleEndian.toInt64 (buffer.slice 16 8) } := by
  rw [parse, headerSize, if_neg (Nat.not_lt.mpr header), if_neg (not_not_intro magic)]

/-- A header with the mark of the format is read back from the front of a buffer that begins
with it. -/
theorem parse_toBytes_append (marked : header.magic = Magic.archive) (rest : Bytes) :
    parse (header.toBytes ++ rest) = .ok header := by
  have available : 24 ≤ (header.toBytes ++ rest).length := by
    rw [List.length_append, length_toBytes]
    exact Nat.le_add_right headerSize _
  have magic : (header.toBytes ++ rest).slice 0 8 = Magic.archive.bytes := by
    rw [slice_magic, marked]
  rw [parse_of_magic available magic, slice_indexCount, slice_totalSize, toInt64_ofInt64,
    toInt64_ofInt64, ← marked]

/-- **What is read as a header**: exactly the front of a buffer, if that is the written form of
the header and carries the mark of the format. -/
theorem parse_eq_ok_iff :
    parse buffer = .ok header ↔
      headerSize ≤ buffer.length ∧ header.magic = Magic.archive ∧
        header.toBytes = buffer.take headerSize := by
  constructor
  · intro read
    rcases Nat.lt_or_ge buffer.length headerSize with short | available
    · cases read.symm.trans (parse_of_short short)
    · by_cases magic : buffer.slice 0 8 = Magic.archive.bytes
      · obtain rfl := Except.ok.inj (read.symm.trans (parse_of_magic available magic))
        exact ⟨available, rfl, toBytes_of_fields _ available magic rfl rfl⟩
      · cases read.symm.trans (parse_of_foreign available magic)
  · rintro ⟨-, marked, written⟩
    have begins : buffer = header.toBytes ++ buffer.drop headerSize := by
      rw [written, List.take_append_drop]
    rw [begins]
    exact parse_toBytes_append marked _

end Header

/-! ## One to one -/

/-- Every 36 bytes are the written form of one entry. -/
theorem IndexEntry.bijOn_toBytes :
    Set.BijOn IndexEntry.toBytes Set.univ {bytes | bytes.length = entrySize} := by
  refine ⟨fun entry _ => entry.length_toBytes, toBytes_injective.injOn, ?_⟩
  intro bytes width
  exact ⟨ofBytes bytes, Set.mem_univ _, toBytes_ofBytes width⟩

/-- Every 24 bytes that begin with the mark of the format are the written form of one header
with that mark. -/
theorem Header.bijOn_toBytes :
    Set.BijOn Header.toBytes {header | header.magic = Magic.archive}
      {bytes | bytes.length = headerSize ∧ bytes.take 8 = Magic.archive.bytes} := by
  refine ⟨fun header marked => ?_, fun header marked other marked' same => ?_, ?_⟩
  · have magic := slice_magic header []
    rw [List.append_nil] at magic
    exact ⟨header.length_toBytes, magic.trans (congrArg Magic.bytes marked)⟩
  · have read := parse_toBytes_append marked []
    rw [same] at read
    exact Except.ok.inj (read.symm.trans (parse_toBytes_append marked' []))
  · rintro bytes ⟨width, magic⟩
    have read := parse_of_magic (Nat.le_of_eq width.symm) magic
    obtain ⟨-, marked, written⟩ := parse_eq_ok_iff.mp read
    exact ⟨_, marked, written.trans (List.take_of_length_le (Nat.le_of_eq width))⟩

/-- **Reading and writing are inverse to each other.**  An entry that was written is read back,
whatever follows it, and 36 bytes that were read are written again.  A header is read back
exactly if it carries the mark of the format, and what was read as one is written again.  So the
written forms of entries, and those of headers with the mark, are in one-to-one correspondence
with the byte strings of their size. -/
theorem parse_inverts_toBytes :
    (∀ (entry : IndexEntry) (rest : Bytes),
        IndexEntry.parse (entry.toBytes ++ rest) = .ok entry) ∧
      (∀ buffer : Bytes, entrySize ≤ buffer.length →
        (IndexEntry.parse buffer).map IndexEntry.toBytes = .ok (buffer.take entrySize)) ∧
      (∀ (header : Header) (rest : Bytes),
        Header.parse (header.toBytes ++ rest) = .ok header ↔ header.magic = Magic.archive) ∧
      (∀ (buffer : Bytes) (header : Header), Header.parse buffer = .ok header →
        header.toBytes = buffer.take headerSize) ∧
      Set.BijOn IndexEntry.toBytes Set.univ {bytes | bytes.length = entrySize} ∧
      Set.BijOn Header.toBytes {header | header.magic = Magic.archive}
        {bytes | bytes.length = headerSize ∧ bytes.take 8 = Magic.archive.bytes} := by
  refine ⟨fun entry rest => ?_, fun buffer inside => ?_, fun header rest => ⟨fun read => ?_,
    fun marked => ?_⟩, fun buffer header read => ?_, IndexEntry.bijOn_toBytes,
    Header.bijOn_toBytes⟩
  · refine IndexEntry.parse_eq_ok_iff.mpr ⟨?_, ?_⟩
    · rw [List.length_append, IndexEntry.length_toBytes]
      exact Nat.le_add_right _ _
    · rw [List.take_left' entry.length_toBytes]
  · obtain ⟨entry, -, written⟩ :=
      IndexEntry.bijOn_toBytes.surjOn (List.length_take_of_le inside)
    rw [IndexEntry.parse_eq_ok_iff.mpr ⟨inside, written⟩, Except.map, written]
  · exact (Header.parse_eq_ok_iff.mp read).2.1
  · exact Header.parse_toBytes_append marked rest
  · exact (Header.parse_eq_ok_iff.mp read).2.2

/-- All fields at their limits, one byte behind an entry, and a header without the mark. -/
theorem parse_inverts_toBytes_limits :
    let entry : IndexEntry := {
      checksum := 0xFFFFFFFFFFFFFFFF
      offset := Int64.minValue
      length := -1
      pathLength := Int64.maxValue
      reserved := 0xFFFFFFFF }
    let unmarked : Header := {
      magic := ⟨[0x54, 0x41, 0x54, 0x49, 0x58, 0x5F, 0x41, 0x53], rfl⟩
      indexCount := -1
      totalSize := Int64.minValue }
    let buffer := List.replicate 37 (0x80 : UInt8)
    IndexEntry.parse (entry.toBytes ++ [0]) = .ok entry ∧
      (IndexEntry.parse buffer).map IndexEntry.toBytes = .ok (List.replicate 36 0x80) ∧
      Header.parse unmarked.toBytes ≠ .ok unmarked := by
  intro entry unmarked buffer
  obtain ⟨entryBack, bytesBack, headerBack, -⟩ := parse_inverts_toBytes
  refine ⟨entryBack entry [0], bytesBack buffer (by decide), fun read => ?_⟩
  rw [← List.append_nil unmarked.toBytes] at read
  exact absurd ((headerBack unmarked []).mp read) (by decide)

end FlatArchive
