import FlatArchive.Layout.Basic
import FlatArchive.Proofs.Reader.Front
import Mathlib

/-!
# What the declared size covers

The header declares a size, and a buffer may be longer.  One expects that the bytes
past the declared size are none of the archive's: they may be anything, and there
may be any number of them.  This is so for every archive that lies inside its
declared size, table and blocks (`Bytes.EndsBy`), and for no other
(`decode_eq_iff_endsBy`).

There are others.  The places of rows and blocks are compared with the length of the
buffer and not with the declared size, so a block may lie past it, and then what is
read depends on bytes that are said to be ignored (`not_trailing_ignored`).
-/

namespace FlatArchive

/-- Neither the table nor a block that it points to reaches beyond `stop`. -/
structure Bytes.EndsBy (buffer : Bytes) (stop : Nat) : Prop where
  table_le : 24 + 36 * buffer.indexCount ≤ stop
  block_le : ∀ i : Nat, i < buffer.indexCount →
    (buffer.row i).offset + (buffer.row i).length ≤ stop

namespace Bytes

variable {buffer changed : Bytes} {stop : Nat} {records : List FileRecord}

/-- An archive lies inside its buffer. -/
theorem Holds.endsBy_length (holds : buffer.Holds records) : buffer.EndsBy buffer.length where
  table_le := holds.opens.table_le
  block_le := by
    intro i counted
    have inside : i < records.length := by
      have length := holds.length_eq
      omega
    exact (holds.denotes i inside).inBounds.stop_le

namespace EndsBy

theorem header_le (ends : buffer.EndsBy stop) (opens : buffer.Opens) : 24 ≤ stop := by
  have table := ends.table_le
  have counted := opens.indexCount_nonneg
  omega

theorem row_le (ends : buffer.EndsBy stop) {i : Nat} (counted : i < buffer.indexCount) :
    tableEnd (i + 1) ≤ stop := by
  have table := ends.table_le
  unfold tableEnd headerSize entrySize
  omega

end EndsBy

namespace SameFront

theorem of_take (buffer : Bytes) (stop : Nat) : buffer.SameFront (buffer.take stop) stop := by
  unfold SameFront
  rw [List.take_take, Nat.min_self]

/-- Where an archive ends shows at its front. -/
theorem endsBy (same : buffer.SameFront changed stop) (opens : buffer.Opens)
    (ends : buffer.EndsBy stop) : changed.EndsBy stop := by
  have count := same.indexCount_eq (ends.header_le opens)
  constructor
  · rw [count]
    exact ends.table_le
  · intro i counted
    rw [count] at counted
    rw [same.row_eq (ends.row_le counted)]
    exact ends.block_le i counted

theorem row_denotes (same : buffer.SameFront changed stop) (ends : buffer.EndsBy stop)
    (available : stop ≤ changed.length) {i : Nat} (counted : i < buffer.indexCount)
    {record : FileRecord} (denotes : (buffer.row i).Denotes buffer record) :
    (changed.row i).Denotes changed record := by
  obtain ⟨offset, pathLength, path, -⟩ := denotes.inBounds
  have block := ends.block_le i counted
  rw [same.row_eq (ends.row_le counted)]
  refine denotes.of_block_eq ⟨offset, pathLength, path, by omega⟩ ?_
  exact same.slice_eq (by omega)

/-- **What lies behind an archive does not matter to it.** -/
theorem holds (same : buffer.SameFront changed stop) (ends : buffer.EndsBy stop)
    (available : stop ≤ changed.length) (declared : buffer.totalSize ≤ changed.length)
    (holds : buffer.Holds records) : changed.Holds records := by
  have header := ends.header_le holds.opens
  have table := ends.table_le
  refine ⟨same.opens header holds.opens (by omega) declared, ?_, ?_⟩
  · rw [same.indexCount_eq header]
    exact holds.length_eq
  · intro i inside
    have length := holds.length_eq
    exact same.row_denotes ends available (by omega) (holds.denotes i inside)

end SameFront

end Bytes

/-- **The bytes past the declared size are ignored if and only if the archive ends by
there.** -/
theorem decode_eq_iff_endsBy {buffer : Bytes} {records : List FileRecord} {declared : Nat}
    (read : decode buffer = .ok records) (declares : buffer.totalSize = declared) :
    (∀ changed : Bytes, declared ≤ changed.length →
        changed.take declared = buffer.take declared → decode changed = .ok records) ↔
      buffer.EndsBy declared := by
  have holds : buffer.Holds records := ((decode_decides buffer).ok_iff records).mp read
  constructor
  · intro ignored
    have fits := holds.opens.totalSize_le
    -- without the bytes past the declared size, the archive has to end there
    have same := Bytes.SameFront.of_take buffer declared
    have length : (buffer.take declared).length = declared := by
      rw [List.length_take]
      omega
    have cut : Bytes.Holds (buffer.take declared) records :=
      ((decode_decides _).ok_iff records).mp (ignored _ (Nat.le_of_eq length.symm) same)
    have ends := cut.endsBy_length
    rw [length] at ends
    exact same.symm.endsBy cut.opens ends
  · intro ends changed available same
    refine ((decode_decides changed).ok_iff records).mpr ?_
    have front : buffer.SameFront changed declared := same
    exact front.holds ends available (by omega) holds

/-- A file `a` that holds two bytes, in an archive with three bytes behind it. -/
def padded : Bytes :=
  Layout.encode [⟨"a", 2, [0x68, 0x69]⟩] ++ [0, 0, 0]

/-- The padding may be shorter, and other bytes. -/
theorem decode_padded :
    decode padded = .ok [⟨"a", 2, [0x68, 0x69]⟩] ∧ padded.EndsBy 64 ∧
      decode (padded.take 64 ++ [0xFF]) = .ok [⟨"a", 2, [0x68, 0x69]⟩] := by
  have read : decode padded = .ok [⟨"a", 2, [0x68, 0x69]⟩] := by cbv
  have ends : padded.EndsBy 64 := by
    constructor
    · decide
    · intro i counted
      have one : padded.indexCount = 1 := by decide
      obtain rfl : i = 0 := by omega
      decide
  refine ⟨read, ends, ?_⟩
  exact (decode_eq_iff_endsBy read (by decide)).mpr ends _ (by decide) (by decide)

/-- An archive whose one block, a path of two bytes and some content, lies past the
declared size. -/
def overhanging (content : Bytes) : Bytes :=
  Header.toBytes { indexCount := 1, totalSize := 60 } ++
    (IndexEntry.toBytes {
      checksum := Djb2.checksum [0x2F, 0x78, 0x61, 0x63]
      offset := 60
      length := 4
      pathLength := 2 } ++ (0x2F :: 0x78 :: content))

/-- **Bytes past the declared size are not ignored.**  Two archives of the same length
declare the same size and agree up to there, and still one holds `ac` and the other
`bB`, which has the same digest. -/
theorem not_trailing_ignored :
    ¬ ∀ (buffer changed : Bytes) (records : List FileRecord) (declared : Nat),
        decode buffer = .ok records → buffer.totalSize = declared →
        declared ≤ changed.length → changed.take declared = buffer.take declared →
        decode changed = .ok records := by
  intro ignored
  have first : decode (overhanging [0x61, 0x63]) = .ok [⟨"x", 2, [0x61, 0x63]⟩] := by cbv
  have second : decode (overhanging [0x62, 0x42]) = .ok [⟨"x", 2, [0x62, 0x42]⟩] := by cbv
  have same := ignored _ (overhanging [0x62, 0x42]) _ 60 first (by decide) (by decide)
    (by decide)
  rw [second] at same
  simp at same

end FlatArchive
