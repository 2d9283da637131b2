import FlatArchive.Proofs.Layout.RoundTrip
import FlatArchive.Proofs.Reader.Declared
import Mathlib

/-!
# The beginning of an archive

Writing may be interrupted, and what is left is then the beginning of an archive.  The
header declares how much there should be, and so a beginning is told from an archive
wherever it was cut off: between two blocks as well as inside a path, and also where the
rows and blocks up to there would make a smaller archive.

A beginning has the front of the whole (`Bytes.SameFront.of_take`), so the header says the
same in both, as far as it is there.  What remains to be compared is the length, with the
end of the table and with the declared size (`Bytes.opens_take_iff`).
-/

namespace FlatArchive

namespace Bytes

variable {buffer : Bytes} {k : Nat}

/-- A beginning of what opens does so too if the table and the declared size end in it. -/
theorem opens_take_iff (opens : buffer.Opens) (inside : k ≤ buffer.length) :
    Opens (buffer.take k) ↔ 24 + 36 * buffer.indexCount ≤ k ∧ buffer.totalSize ≤ k := by
  have same := SameFront.of_take buffer k
  have length := List.length_take_of_le inside
  constructor
  · intro cut
    have header := cut.header_le
    have table := cut.table_le
    have declared := cut.totalSize_le
    rw [length] at header table declared
    rw [same.indexCount_eq header] at table
    rw [same.totalSize_eq header] at declared
    exact ⟨table, declared⟩
  · rintro ⟨table, declared⟩
    have counted := opens.indexCount_nonneg
    have header : 24 ≤ k := by omega
    exact same.opens header opens (by omega) (by omega)

/-- A beginning that does not reach the declared size is reported for the first thing that
it does not reach. -/
theorem headerDefect_take (opens : buffer.Opens) (word : buffer.length < UInt64.size)
    (inside : k ≤ buffer.length) (short : k < buffer.totalSize) :
    HeaderDefect (buffer.take k) (
      if k < 24 + 36 * buffer.indexCount.toNat then
        .truncated (if k < 24 then 24 else 24 + 36 * buffer.indexCount.toNat) k
      else .sizeMismatch buffer.totalSize k) := by
  have same := SameFront.of_take buffer k
  have length := List.length_take_of_le inside
  have counted := opens.indexCount_nonneg
  have table := opens.table_le
  rcases Nat.lt_or_ge k 24 with noHeader | header
  · rw [if_pos (by omega), if_pos noHeader]
    have defect : HeaderDefect (buffer.take k) _ := .short (by omega)
    rwa [length] at defect
  · have magic := opens.magic
    rw [← same.magic_eq header] at magic
    rw [← same.indexCount_eq header] at counted table ⊢
    rw [← same.totalSize_eq header] at short ⊢
    rcases Nat.lt_or_ge k (24 + 36 * (indexCount (buffer.take k)).toNat) with noTable | whole
    · have defect := HeaderDefect.table (by omega) magic counted (by omega)
      rw [Nat.min_eq_left (by omega), length] at defect
      rwa [if_pos noTable, if_neg (Nat.not_lt.mpr header)]
    · have defect := HeaderDefect.size (by omega) magic counted (by omega)
        (Or.inr (by omega))
      rw [length] at defect
      rwa [if_neg (Nat.not_lt.mpr whole)]

end Bytes

/-- **A beginning of an archive is no archive.**  The first `k` bytes of a buffer that opens
do so too exactly if the table and the declared size end in them; and so what was laid out
is read from no proper beginning of it, but reported as too short for the header or the
table, or else for the size that it declares. -/
theorem ofBytes_take_iff :
    (∀ (buffer : Bytes) (reader : Reader), Reader.ofBytes buffer = .ok reader →
      ∀ k ≤ buffer.length,
        ((∃ shorter, Reader.ofBytes (buffer.take k) = .ok shorter) ↔
          max (24 + 36 * reader.count) reader.declared ≤ k)) ∧
      ∀ records : List FileRecord, Layout.totalSize records < 2 ^ 63 →
        ∀ k < (Layout.encode records).length,
          decode ((Layout.encode records).take k) = .error (
            if k < 24 + 36 * records.length then
              .truncated (if k < 24 then 24 else 24 + 36 * records.length) k
            else .sizeMismatch (Layout.totalSize records) k) := by
  constructor
  · intro buffer reader opened k inside
    obtain rfl := Reader.bytes_of_ofBytes opened
    have counted := reader.opens.indexCount_nonneg
    have declared := reader.opens.totalSize_nonneg
    rw [Reader.exists_ofBytes_iff_opens, Bytes.opens_take_iff reader.opens inside,
      reader.count_eq, Reader.declared, reader.totalSize_eq]
    omega
  · intro records fits k inside
    have words := Layout.fitsWords_iff.mpr fits
    have length := Layout.length_encode records
    have count := Layout.indexCount_encode words
    have declared := Layout.totalSize_encode words
    have word : (Layout.encode records).length < UInt64.size := by
      unfold UInt64.size
      omega
    have defect := Bytes.headerDefect_take (Layout.opens_encode words) word
      (Nat.le_of_lt inside) (by omega)
    rw [count, declared, Int.toNat_natCast] at defect
    exact decode_of_headerDefect defect

/-- An archive whose last file has neither a path nor content: its block is one slash. -/
def emptyTail : List FileRecord :=
  [⟨"a", 1, [0x01]⟩, ⟨"", 0, []⟩]

/-- Without the last slash the archive is too short, although all of the file `a` is there;
cut off inside the table it is too short for its rows. -/
theorem ofBytes_take_emptyTail :
    (∃ reader, Reader.ofBytes (Layout.encode emptyTail) = .ok reader ∧
      ¬ (∃ shorter, Reader.ofBytes ((Layout.encode emptyTail).take 99) = .ok shorter) ∧
      ∃ whole, Reader.ofBytes ((Layout.encode emptyTail).take 100) = .ok whole) ∧
      decode ((Layout.encode emptyTail).take 99) = .error (.sizeMismatch 100 99) ∧
      decode ((Layout.encode emptyTail).take 95) = .error (.truncated 96 95) ∧
      decode ((Layout.encode emptyTail).take 23) = .error (.truncated 24 23) := by
  have fits : Layout.totalSize emptyTail < 2 ^ 63 := by decide
  have words := Layout.fitsWords_iff.mpr fits
  have length : (Layout.encode emptyTail).length = 100 := Layout.length_encode emptyTail
  obtain ⟨reader, opened⟩ :=
    (Reader.exists_ofBytes_iff_opens _).mpr (Layout.opens_encode words)
  have counted : reader.count = 2 := by
    rw [reader.count_eq, Reader.bytes_of_ofBytes opened, Layout.indexCount_encode words]
    rfl
  have declared : reader.declared = 100 := by
    rw [Reader.declared, reader.totalSize_eq, Reader.bytes_of_ofBytes opened,
      Layout.totalSize_encode words]
    decide
  have cut := ofBytes_take_iff.1 _ reader opened
  rw [counted, declared] at cut
  refine ⟨⟨reader, opened, ?_, ?_⟩, ?_⟩
  · rw [cut 99 (by omega)]
    decide
  · exact (cut 100 (by omega)).mpr (by decide)
  · have reported := ofBytes_take_iff.2 emptyTail fits
    exact ⟨reported 99 (by omega), reported 95 (by omega), reported 23 (by omega)⟩

end FlatArchive
