import FlatArchive.Proofs.Digest.Injective
import FlatArchive.Proofs.Layout.RoundTrip
import FlatArchive.Proofs.Reader.Agreement
import Mathlib

/-!
# One damaged byte is found

The digest in row `i` guards block `i`, and the block guards the digest: if a byte
of either is replaced, the two no longer match (`digest_ne_of_block`,
`digest_ne_of_digest`).  Any archive has this, whoever wrote it, as long as the
block does not reach into its own row.

That the report names row `i` and no other needs the layout.  The rows before it
and their blocks have to be untouched (`agreesBelow_set`), which is a matter of
where things lie: the table comes before the blocks, and blocks do not overlap.
The report on the digest comes before any on the path, which the damage may have
made unreadable.
-/

namespace FlatArchive

/-! ## A replaced byte and a row -/

namespace Bytes

variable {buffer : Bytes} {index place : Nat} {b : UInt8}

theorem signedAt_set_of_outside {start : Nat}
    (outside : place < start ∨ start + 8 ≤ place) :
    signedAt (buffer.set place b) start = buffer.signedAt start := by
  rw [signedAt, signedAt, slice_set_of_outside _ _ _ _ _ outside]

/-- A byte outside a row has no say in what the row is read as. -/
theorem row_set_of_outside
    (outside : place < tableEnd index ∨ tableEnd (index + 1) ≤ place) :
    row (buffer.set place b) index = buffer.row index := by
  have width : tableEnd (index + 1) = tableEnd index + 36 := rfl
  rw [row, row, slice_set_of_outside _ _ _ _ _ (by omega),
    signedAt_set_of_outside (by omega), signedAt_set_of_outside (by omega),
    signedAt_set_of_outside (by omega)]

/-- A byte replaced in the digest of a row changes the digest and nothing else. -/
theorem row_set_of_digest (from_start : tableEnd index ≤ place)
    (to_stop : place < tableEnd index + 8) :
    row (buffer.set place b) index = {
      buffer.row index with
      checksum := LittleEndian.toUInt64
        ((buffer.slice (tableEnd index) 8).set (place - tableEnd index) b) } := by
  rw [row, row, slice_set_of_inside _ _ _ _ _ from_start,
    signedAt_set_of_outside (by omega), signedAt_set_of_outside (by omega),
    signedAt_set_of_outside (by omega)]

/-- The numbers of a row say where its block is, so damage beside them leaves the
block in bounds. -/
theorem inBounds_set
    (beside : place < tableEnd index + 8 ∨ tableEnd (index + 1) ≤ place)
    (inBounds : (buffer.row index).InBounds buffer.length) :
    (row (buffer.set place b) index).InBounds (buffer.set place b).length := by
  have width : tableEnd (index + 1) = tableEnd index + 36 := rfl
  rw [List.length_set]
  by_cases behind : tableEnd index ≤ place ∧ place < tableEnd index + 8
  · obtain ⟨from_start, to_stop⟩ := behind
    rw [row_set_of_digest from_start to_stop]
    exact ⟨inBounds.offset_nonneg, inBounds.pathLength_nonneg,
      inBounds.pathLength_le, inBounds.stop_le⟩
  · rw [row_set_of_outside (by omega)]
    exact inBounds

/-- A byte replaced in the block of a row changes the digest of the block. -/
theorem digest_ne_of_block (inBounds : (buffer.row index).InBounds buffer.length)
    (digest : Djb2.checksum ((buffer.row index).block buffer) = (buffer.row index).checksum)
    (outside : place < tableEnd index ∨ tableEnd (index + 1) ≤ place)
    (from_start : (buffer.row index).offset.toNat ≤ place)
    (to_stop : place < (buffer.row index).offset.toNat + (buffer.row index).length.toNat)
    (different : buffer[place]? ≠ some b) :
    Djb2.checksum ((row (buffer.set place b) index).block (buffer.set place b)) ≠
      (row (buffer.set place b) index).checksum := by
  have window := inBounds.length_block
  rw [row_set_of_outside outside, ← digest, Row.block,
    slice_set_of_inside _ _ _ _ _ from_start]
  apply Djb2.checksum_set_ne
  · rw [Row.block] at window
    omega
  · rw [getElem?_slice _ _ _ _ (by omega), Nat.add_sub_cancel' from_start]
    exact different

/-- A byte replaced in the digest of a row makes it another digest. -/
theorem digest_ne_of_digest
    (digest : Djb2.checksum ((buffer.row index).block buffer) = (buffer.row index).checksum)
    (table : tableEnd (index + 1) ≤ buffer.length)
    (apart : place < (buffer.row index).offset.toNat)
    (from_start : tableEnd index ≤ place) (to_stop : place < tableEnd index + 8)
    (different : buffer[place]? ≠ some b) :
    Djb2.checksum ((row (buffer.set place b) index).block (buffer.set place b)) ≠
      (row (buffer.set place b) index).checksum := by
  have width : tableEnd (index + 1) = tableEnd index + 36 := rfl
  have available : tableEnd index + 8 ≤ buffer.length := by omega
  have eight := length_slice buffer (tableEnd index) 8 available
  rw [row_set_of_digest from_start to_stop, Row.block,
    slice_set_of_outside _ _ _ _ _ (Or.inl apart)]
  intro same
  have words : LittleEndian.toUInt64
        ((buffer.slice (tableEnd index) 8).set (place - tableEnd index) b) =
      LittleEndian.toUInt64 (buffer.slice (tableEnd index) 8) :=
    same.symm.trans digest
  -- the digest is eight bytes, and these are not the eight bytes that were there
  exact set_slice_ne available from_start to_stop different
    (LittleEndian.toUInt64_injective (by rw [List.length_set, eight]) eight words)

end Bytes

/-! ## Damage to what was laid out -/

namespace Layout

variable {records : List FileRecord} {index place : Nat} {b : UInt8}

/-- A byte outside a block has no say in what the row finds there. -/
theorem block_row_set (fits : FitsWords records) (inside : index < records.length)
    (outside : place < blockStart records index ∨ blockStart records (index + 1) ≤ place) :
    ((encode records).row index).block ((encode records).set place b) =
      ((encode records).row index).block (encode records) := by
  have next := blockStart_succ inside
  rw [Row.block, Row.block, row_encode fits inside]
  apply Bytes.slice_set_of_outside
  simp only [Int.toNat_natCast]
  omega

/-- Damage from row `index` on leaves the rows before it as they were, and their
blocks too if it is in row `index` or behind those blocks. -/
theorem agreesBelow_set (fits : FitsWords records) (inside : index < records.length)
    (behind : tableEnd index ≤ place)
    (outside : place < tableEnd (index + 1) ∨ blockStart records index ≤ place) :
    (encode records).AgreesBelow ((encode records).set place b) index where
  length_eq := List.length_set
  front := by
    apply Bytes.slice_set_of_outside
    omega
  blocks := by
    intro i below _
    have inTable : i < records.length := Nat.lt_trans below inside
    apply block_row_set fits inTable
    rcases outside with inRow | inBlocks
    · left
      calc place < tableEnd (index + 1) := inRow
        _ ≤ tableEnd records.length := tableEnd_mono inside
        _ ≤ blockStart records i := Nat.le_add_right _ _
    · right
      exact Nat.le_trans (blockStart_mono below) inBlocks

/-- If the rows before row `index` are as they were laid out, a defect of row `index`
is the first one. -/
theorem firstDefect_of_agreesBelow (fits : FitsWords records)
    (inside : index < records.length) {changed : Bytes}
    (agrees : (encode records).AgreesBelow changed index) {e : ArchiveError}
    (defect : (changed.row index).Defect changed index e) : changed.FirstDefect e := by
  have inTable : (index : Int) < changed.indexCount := by
    rw [agrees.indexCount_eq, indexCount_encode fits]
    exact Int.ofNat_lt.mpr inside
  refine .row (agrees.opens (opens_encode fits)) index inTable ?_ defect
  intro j earlier
  have denotes := denotes_encode fits (Nat.lt_trans earlier inside)
  exact ⟨_, agrees.denotes earlier denotes⟩

end Layout

/-- **One damaged byte is found and named.**  Replace one byte of an archive, in
the block of record `index` or in the digest in its row, by any other byte: reading
fails, and the report is that the digest of row `index` does not match. -/
theorem decode_set_eq_checksumMismatch (records : List FileRecord)
    (fits : Layout.totalSize records < 2 ^ 63) (index : Nat)
    (inside : index < records.length) (place : Nat)
    (guarded :
      (Layout.blockStart records index ≤ place ∧
          place < Layout.blockStart records index + records[index].blockLength) ∨
        (tableEnd index ≤ place ∧ place < tableEnd index + 8))
    (b : UInt8) (different : (Layout.encode records)[place]? ≠ some b) :
    ∃ stored computed,
      decode ((Layout.encode records).set place b) =
        .error (.checksumMismatch index stored computed) := by
  have words := Layout.fitsWords_iff.mpr fits
  have denotes := Layout.denotes_encode words inside
  have offset : ((Layout.encode records).row index).offset.toNat =
      Layout.blockStart records index := by
    rw [Layout.row_encode words inside]
    rfl
  have length : ((Layout.encode records).row index).length.toNat =
      records[index].blockLength := by
    rw [Layout.row_encode words inside]
    rfl
  have width : tableEnd (index + 1) = tableEnd index + 36 := rfl
  have table := Layout.tableEnd_le_blockStart inside
  have agrees : (Layout.encode records).AgreesBelow ((Layout.encode records).set place b)
      index :=
    Layout.agreesBelow_set words inside (by omega) (by omega)
  have inBounds : (Bytes.row ((Layout.encode records).set place b) index).InBounds
      ((Layout.encode records).set place b).length :=
    Bytes.inBounds_set (by omega) denotes.inBounds
  -- No earlier row is touched, and this one has kept its place, so the digest is what is reported.
  refine ⟨_, _, ((decode_decides _).error_iff _).mpr
    (Layout.firstDefect_of_agreesBelow words inside agrees (.digest inBounds ?_))⟩
  rcases guarded with ⟨from_start, to_stop⟩ | ⟨from_start, to_stop⟩
  · exact Bytes.digest_ne_of_block denotes.inBounds denotes.digest (by omega) (by omega)
      (by omega) different
  · have available : tableEnd (index + 1) ≤ (Layout.encode records).length := by
      have stop := Layout.blockStop_le_totalSize inside
      rw [Layout.length_encode]
      omega
    exact Bytes.digest_ne_of_digest denotes.digest available (by omega)
      from_start to_stop different

/-- The slash of the second path becomes a byte that no text contains, and still it is
the digest that is reported. -/
theorem decode_set_slash_eq_checksumMismatch :
    ∃ stored computed,
      decode ((Layout.encode [⟨"a", 1, [0x01]⟩, ⟨"b", 1, [0x02]⟩]).set 99 0xFF) =
        .error (.checksumMismatch 1 stored computed) :=
  decode_set_eq_checksumMismatch _ (by decide) 1 (by decide) 99 (Or.inl (by decide)) 0xFF
    (by decide)

end FlatArchive
