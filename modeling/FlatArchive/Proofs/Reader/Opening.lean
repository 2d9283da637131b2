import FlatArchive.Proofs.Format.Codec
import FlatArchive.Proofs.Reader.Row

/-!
# When a buffer opens

Before any row is looked at, the header and the extent of the table have to be in
order.  `Bytes.Opens` says so in integers without bounds, and
`Bytes.HeaderDefect` says which report a buffer gets that does not open: the one
of the first condition that fails, in the order of the fields of `Opens`.

A reader is determined by its buffer.  To open a buffer is therefore to find the
reader with `reader.bytes = buffer`, and `Reader.ofBytes` does that or gives the
report (`ofBytes_decides`): every fact about readers is a fact about buffers that
open.
-/

namespace FlatArchive

namespace Bytes

/-- The number of rows that the header counts. -/
def indexCount (buffer : Bytes) : Int :=
  buffer.signedAt 8

/-- The size that the header declares. -/
def totalSize (buffer : Bytes) : Int :=
  buffer.signedAt 16

/-- The header is in order, the table lies inside the buffer, and the declared
size does not exceed it. -/
structure Opens (buffer : Bytes) : Prop where
  header_le : 24 ≤ buffer.length
  magic : buffer.slice 0 8 = Magic.archive.bytes
  indexCount_nonneg : 0 ≤ buffer.indexCount
  table_le : 24 + 36 * buffer.indexCount ≤ buffer.length
  totalSize_nonneg : 0 ≤ buffer.totalSize
  totalSize_le : buffer.totalSize ≤ buffer.length

/-- The report on a buffer that does not open: what the first failing condition
found.  Where the table ends is reported up to the greatest word. -/
inductive HeaderDefect (buffer : Bytes) : ArchiveError → Prop
  | short (short : buffer.length < 24) :
      HeaderDefect buffer (.truncated 24 buffer.length)
  | magic (header : 24 ≤ buffer.length)
      (foreign : buffer.slice 0 8 ≠ Magic.archive.bytes) :
      HeaderDefect buffer (.invalidMagic (buffer.slice 0 8))
  | count (header : 24 ≤ buffer.length)
      (magic : buffer.slice 0 8 = Magic.archive.bytes)
      (negative : buffer.indexCount < 0) :
      HeaderDefect buffer (.negativeIndexCount buffer.indexCount)
  | table (header : 24 ≤ buffer.length)
      (magic : buffer.slice 0 8 = Magic.archive.bytes)
      (counted : 0 ≤ buffer.indexCount)
      (short : buffer.length < 24 + 36 * buffer.indexCount) :
      HeaderDefect buffer
        (.truncated (min (24 + 36 * buffer.indexCount.toNat) (UInt64.size - 1))
          buffer.length)
  | size (header : 24 ≤ buffer.length)
      (magic : buffer.slice 0 8 = Magic.archive.bytes)
      (counted : 0 ≤ buffer.indexCount)
      (table : 24 + 36 * buffer.indexCount ≤ buffer.length)
      (wrong : buffer.totalSize < 0 ∨ buffer.length < buffer.totalSize) :
      HeaderDefect buffer (.sizeMismatch buffer.totalSize buffer.length)

variable {buffer : Bytes}

theorem Opens.not_headerDefect {e : ArchiveError} (opens : buffer.Opens) :
    ¬ buffer.HeaderDefect e := by
  obtain ⟨header, magic, counted, table, declared, fits⟩ := opens
  intro defect
  cases defect with
  | short short => omega
  | magic _ foreign => exact foreign magic
  | count _ _ negative => omega
  | table _ _ _ short => omega
  | size _ _ _ _ wrong => omega

/-- There is one report on a header, since each defect says that those before it are absent. -/
theorem HeaderDefect.unique {e e' : ArchiveError} (first : buffer.HeaderDefect e)
    (second : buffer.HeaderDefect e') : e = e' := by
  cases first with
  | short short =>
      cases second with
      | short => rfl
      | magic header | count header | table header | size header =>
          exact absurd short (Nat.not_lt.mpr header)
  | magic header foreign =>
      cases second with
      | short short => exact absurd short (Nat.not_lt.mpr header)
      | magic => rfl
      | count _ magic | table _ magic | size _ magic => exact absurd magic foreign
  | count header magic negative =>
      cases second with
      | short short => exact absurd short (Nat.not_lt.mpr header)
      | magic _ foreign => exact absurd magic foreign
      | count => rfl
      | table _ _ counted | size _ _ counted =>
          exact absurd negative (Int.not_lt.mpr counted)
  | table header magic counted short =>
      cases second with
      | short short => exact absurd short (Nat.not_lt.mpr header)
      | magic _ foreign => exact absurd magic foreign
      | count _ _ negative => exact absurd negative (Int.not_lt.mpr counted)
      | table => rfl
      | size _ _ _ table => exact absurd short (Int.not_lt.mpr table)
  | size header magic counted table =>
      cases second with
      | short short => exact absurd short (Nat.not_lt.mpr header)
      | magic _ foreign => exact absurd magic foreign
      | count _ _ negative => exact absurd negative (Int.not_lt.mpr counted)
      | table _ _ _ short => exact absurd short (Int.not_lt.mpr table)
      | size => rfl

end Bytes

/-! ## Parsing the header -/

namespace Header

variable {buffer : Bytes}

/-- A header that was read is what stands in the first 24 bytes. -/
theorem eq_of_parse {header : Header} (parsed : parse buffer = .ok header) :
    24 ≤ buffer.length ∧ buffer.slice 0 8 = Magic.archive.bytes ∧
      header.indexCount.toInt = buffer.indexCount ∧
      header.totalSize.toInt = buffer.totalSize := by
  rcases Nat.lt_or_ge buffer.length 24 with short | long
  · cases parsed.symm.trans (parse_of_short short)
  · by_cases magic : buffer.slice 0 8 = Magic.archive.bytes
    · obtain rfl := Except.ok.inj (parsed.symm.trans (parse_of_magic long magic))
      exact ⟨long, magic, Bytes.toInt_toInt64_slice buffer 8 (by omega),
        Bytes.toInt_toInt64_slice buffer 16 (by omega)⟩
    · cases parsed.symm.trans (parse_of_foreign long magic)

end Header

/-! ## Opening -/

namespace Reader

theorem indexCount_eq (reader : Reader) :
    reader.header.indexCount.toInt = reader.bytes.indexCount :=
  (Header.eq_of_parse reader.parse_bytes).2.2.1

theorem totalSize_eq (reader : Reader) :
    reader.header.totalSize.toInt = reader.bytes.totalSize :=
  (Header.eq_of_parse reader.parse_bytes).2.2.2

theorem count_eq (reader : Reader) : reader.count = reader.bytes.indexCount.toNat := by
  rw [count, indexCount_eq]

/-- A reader is only ever made of a buffer that opens. -/
theorem opens (reader : Reader) : reader.bytes.Opens := by
  obtain ⟨header, magic, counted, declared⟩ := Header.eq_of_parse reader.parse_bytes
  have nonneg := reader.indexCount_nonneg
  have table := reader.tableEnd_le
  have declared_nonneg := reader.totalSize_nonneg
  have fits := reader.totalSize_le
  unfold tableEnd headerSize entrySize at table
  constructor <;> first | assumption | omega

/-- A reader is determined by its buffer. -/
theorem eq_of_bytes_eq {a b : Reader} (same : a.bytes = b.bytes) : a = b := by
  obtain ⟨bytesA, headerA, parsedA⟩ := a
  obtain ⟨bytesB, headerB, parsedB⟩ := b
  obtain rfl : bytesA = bytesB := same
  obtain rfl := Except.ok.inj (parsedA.symm.trans parsedB)
  rfl

/-- **A buffer opens or is reported.** -/
theorem ofBytes_cases (buffer : Bytes) :
    (∃ reader, ofBytes buffer = .ok reader ∧ reader.bytes = buffer) ∨
      (∃ e, ofBytes buffer = .error e ∧ buffer.HeaderDefect e) := by
  unfold ofBytes
  split
  · next e parsed =>
    right
    refine ⟨e, rfl, ?_⟩
    rcases Nat.lt_or_ge buffer.length 24 with short | long
    · obtain rfl := Except.error.inj (parsed.symm.trans (Header.parse_of_short short))
      exact .short short
    · by_cases magic : buffer.slice 0 8 = Magic.archive.bytes
      · cases parsed.symm.trans (Header.parse_of_magic long magic)
      · obtain rfl := Except.error.inj
          (parsed.symm.trans (Header.parse_of_foreign long magic))
        exact .magic long magic
  · next header parsed =>
    obtain ⟨long, magic, counted, declared⟩ := Header.eq_of_parse parsed
    -- from here on the conditions of `Opens` fail or hold in the order of the checks
    have dataStart : header.dataStart =
        min (24 + 36 * buffer.indexCount.toNat) (UInt64.size - 1) := by
      rw [← counted]
      rfl
    have table : (tableEnd header.indexCount.toInt.toNat : Int) =
        24 + 36 * header.indexCount.toInt.toNat := by
      unfold tableEnd headerSize entrySize
      omega
    split
    · next negative =>
      refine Or.inr ⟨_, rfl, ?_⟩
      rw [counted] at negative ⊢
      exact .count long magic negative
    · next nonneg =>
      split
      · next short =>
        refine Or.inr ⟨_, rfl, ?_⟩
        rw [dataStart]
        exact .table long magic (by omega) (by omega)
      · next inside =>
        split
        · next wrong =>
          refine Or.inr ⟨_, rfl, ?_⟩
          rw [declared] at wrong ⊢
          exact .size long magic (by omega) (by omega) wrong
        · exact Or.inl ⟨_, rfl, rfl⟩

/-- Opening is described exactly: it gives the reader that the buffer determines,
or the report. -/
theorem ofBytes_decides (buffer : Bytes) :
    Decides (ofBytes buffer) (fun reader => reader.bytes = buffer)
      buffer.HeaderDefect := by
  apply Decides.of_cases (ofBytes_cases buffer)
  · exact fun first second => eq_of_bytes_eq (first.trans second.symm)
  · exact Bytes.HeaderDefect.unique
  · rintro reader e rfl
    exact reader.opens.not_headerDefect

theorem bytes_of_ofBytes {buffer : Bytes} {reader : Reader}
    (opened : ofBytes buffer = .ok reader) : reader.bytes = buffer :=
  ((ofBytes_decides buffer).ok_iff reader).mp opened

/-- To open is to be in order. -/
theorem exists_ofBytes_iff_opens (buffer : Bytes) :
    (∃ reader, ofBytes buffer = .ok reader) ↔ buffer.Opens := by
  constructor
  · rintro ⟨reader, opened⟩
    obtain rfl := bytes_of_ofBytes opened
    exact reader.opens
  · intro opens
    rcases ofBytes_cases buffer with ⟨reader, opened, -⟩ | ⟨e, -, defect⟩
    · exact ⟨reader, opened⟩
    · exact absurd defect opens.not_headerDefect

end Reader

end FlatArchive
