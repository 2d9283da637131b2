import FlatArchive.Proofs.Reader.Agreement
import FlatArchive.Proofs.Reader.Declared
import FlatArchive.Proofs.Reader.Machine
import Mathlib

/-!
# More bytes behind a buffer

A buffer may still grow, while it is received or by what is written behind it.  What was
read of it does not change then: the header, the rows and the blocks inside it stand where
they stood, and every bound that was kept is kept all the more.  So a verdict is final
unless it was about bytes that are not there (`decode_append_eq`).

The first row that is not in order stays the first one, although rows behind it may come to
lie in bounds: a report requires only that the rows before it are in order, and these stay
so (`Bytes.FirstDefect.of_prefix`).

A report that names the length of the buffer changes with every byte, and one on a row out
of bounds stands as long as that row is.  With these, `decode_append_eq_iff` says exactly
when the verdict is the same.
-/

namespace FlatArchive

/-- The report is on bytes that were read, and not on where the buffer ends. -/
def ArchiveError.isOnContent : ArchiveError → Bool
  | .invalidMagic _ | .negativeIndexCount _ | .checksumMismatch _ _ _ | .invalidPath _ _ => true
  | .truncated _ _ | .sizeMismatch _ _ | .entryOutOfBounds _ _ _ _ | .io _ _ => false

/-- Reading did not end in a report on missing bytes. -/
def IsSettled {α : Type} : Except ArchiveError α → Prop
  | .ok _ => True
  | .error e => e.isOnContent

variable {buffer longer : Bytes} {e : ArchiveError}

theorem Bytes.SameFront.of_prefix (begins : buffer <+: longer) :
    buffer.SameFront longer buffer.length := by
  unfold SameFront
  rw [List.take_length]
  exact (List.prefix_iff_eq_take.mp begins).symm

/-! ## Rows and their blocks -/

namespace Row

variable {row : Row} {index : Nat}

theorem InBounds.mono {size size' : Nat} (inBounds : row.InBounds size) (le : size ≤ size') :
    row.InBounds size' := by
  obtain ⟨offset, pathLength, path, stop⟩ := inBounds
  exact ⟨offset, pathLength, path, by omega⟩

theorem InBounds.block_eq (inBounds : row.InBounds buffer.length) (begins : buffer <+: longer) :
    row.block longer = row.block buffer := by
  obtain ⟨offset, pathLength, path, stop⟩ := inBounds
  exact (Bytes.SameFront.of_prefix begins).slice_eq (by omega)

theorem Denotes.of_prefix {record : FileRecord} (denotes : row.Denotes buffer record)
    (begins : buffer <+: longer) : row.Denotes longer record :=
  denotes.of_block_eq (denotes.inBounds.mono begins.length_le)
    (denotes.inBounds.block_eq begins)

theorem Defect.of_prefix (defect : row.Defect buffer index e)
    (inBounds : row.InBounds buffer.length) (begins : buffer <+: longer) :
    row.Defect longer index e :=
  defect.of_block_eq inBounds (inBounds.mono begins.length_le) (inBounds.block_eq begins)

end Row

/-! ## Verdicts -/

namespace Bytes

theorem Opens.row_eq (opens : buffer.Opens) (begins : buffer <+: longer) {index : Nat}
    (inTable : index < buffer.indexCount) : longer.row index = buffer.row index := by
  have table := opens.table_le
  apply (SameFront.of_prefix begins).row_eq
  unfold tableEnd headerSize entrySize
  omega

/-- A buffer that opens does so with anything behind it. -/
theorem Opens.of_prefix (opens : buffer.Opens) (begins : buffer <+: longer) : longer.Opens := by
  have table := opens.table_le
  have declared := opens.totalSize_le
  have length := begins.length_le
  exact (SameFront.of_prefix begins).opens opens.header_le opens (by omega) (by omega)

theorem Holds.of_prefix {records : List FileRecord} (holds : buffer.Holds records)
    (begins : buffer <+: longer) : longer.Holds records := by
  have declared := holds.opens.totalSize_le
  have length := begins.length_le
  exact (SameFront.of_prefix begins).holds holds.endsBy_length length (by omega) holds

/-- A defect in the content of the header stays one with anything behind it. -/
theorem HeaderDefect.of_prefix (defect : buffer.HeaderDefect e) (content : e.isOnContent)
    (begins : buffer <+: longer) : longer.HeaderDefect e := by
  have same := SameFront.of_prefix begins
  have length := begins.length_le
  cases defect with
  | magic header foreign =>
      rw [← same.magic_eq header] at foreign ⊢
      exact .magic (by omega) foreign
  | count header magic negative =>
      rw [← same.magic_eq header] at magic
      rw [← same.indexCount_eq header] at negative ⊢
      exact .count (by omega) magic negative
  | short | table | size => cases content

/-- The first row that is not in order stays the first one. -/
theorem firstDefect_row_of_prefix (opens : buffer.Opens) {index : Nat}
    (inTable : index < buffer.indexCount)
    (before : ∀ j, j < index → ∃ record, (buffer.row j).Denotes buffer record)
    (begins : buffer <+: longer) (defect : (buffer.row index).Defect longer index e) :
    longer.FirstDefect e := by
  have count := (SameFront.of_prefix begins).indexCount_eq opens.header_le
  rw [← opens.row_eq begins inTable] at defect
  refine .row (opens.of_prefix begins) index (by omega) ?_ defect
  intro j earlier
  obtain ⟨record, denotes⟩ := before j earlier
  rw [opens.row_eq begins (by omega)]
  exact ⟨record, denotes.of_prefix begins⟩

/-- The first defect stays the first one, if it is in content that was read. -/
theorem FirstDefect.of_prefix (first : buffer.FirstDefect e) (content : e.isOnContent)
    (begins : buffer <+: longer) : longer.FirstDefect e := by
  rcases first with defect | ⟨opens, index, inTable, before, defect⟩
  · exact .header (defect.of_prefix content begins)
  · have inBounds : (buffer.row index).InBounds buffer.length := by
      cases defect with
      | outOfBounds => cases content
      | digest inBounds | path inBounds => exact inBounds
    exact firstDefect_row_of_prefix opens inTable before begins
      (defect.of_prefix inBounds begins)

/-- A report that names the length of the buffer names that of no other. -/
theorem FirstDefect.available_eq_of_truncated {needed available : Nat}
    (first : buffer.FirstDefect (.truncated needed available)) : available = buffer.length := by
  rcases first with ⟨⟨⟩⟩ | ⟨-, -, -, -, ⟨⟩⟩ <;> rfl

theorem FirstDefect.available_eq_of_sizeMismatch {declared : Int} {available : Nat}
    (first : buffer.FirstDefect (.sizeMismatch declared available)) :
    available = buffer.length := by
  rcases first with ⟨⟨⟩⟩ | ⟨-, -, -, -, ⟨⟩⟩
  rfl

/-- A report on a row out of bounds is on a row of the table that is. -/
theorem FirstDefect.not_inBounds {index : Nat} {offset length pathLength : Int}
    (first : buffer.FirstDefect (.entryOutOfBounds index offset length pathLength)) :
    buffer.Opens ∧ index < buffer.indexCount ∧
      ¬ (buffer.row index).InBounds buffer.length := by
  rcases first with ⟨⟨⟩⟩ | ⟨opens, _, inTable, -, ⟨outside⟩⟩
  exact ⟨opens, inTable, outside⟩

/-- A row that stays out of bounds is reported as before. -/
theorem FirstDefect.of_not_inBounds {index : Nat} {offset length pathLength : Int}
    (first : buffer.FirstDefect (.entryOutOfBounds index offset length pathLength))
    (begins : buffer <+: longer) (outside : ¬ (buffer.row index).InBounds longer.length) :
    longer.FirstDefect (.entryOutOfBounds index offset length pathLength) := by
  rcases first with ⟨⟨⟩⟩ | ⟨opens, _, inTable, before, ⟨-⟩⟩
  exact firstDefect_row_of_prefix opens inTable before begins (.outOfBounds outside)

end Bytes

/-! ## The verdict on a longer buffer -/

/-- What reading a buffer has settled it settles for every longer one that begins with it. -/
theorem decode_eq_of_prefix (begins : buffer <+: longer) (settled : IsSettled (decode buffer)) :
    decode longer = decode buffer := by
  cases verdict : decode buffer with
  | ok records =>
      have holds := ((decode_decides buffer).ok_iff records).mp verdict
      exact ((decode_decides longer).ok_iff records).mpr (holds.of_prefix begins)
  | error e =>
      rw [verdict] at settled
      have first := ((decode_decides buffer).error_iff e).mp verdict
      exact ((decode_decides longer).error_iff e).mpr (first.of_prefix settled begins)

/-- **Bytes behind a buffer change no verdict that was not on missing bytes**: neither the
records that it held, nor the report on what was read of it. -/
theorem decode_append_eq (buffer tail : Bytes) (small : (buffer ++ tail).length < 2 ^ 63)
    (settled : IsSettled (decode buffer)) :
    decode (buffer ++ tail) = decode buffer ∧
      Machine.decode (buffer ++ tail) = Machine.decode buffer := by
  have begins : buffer <+: buffer ++ tail := List.prefix_append buffer tail
  have same := decode_eq_of_prefix begins settled
  refine ⟨same, ?_⟩
  have word : (buffer ++ tail).length < UInt64.size := lt_trans small (by decide)
  have shorter := begins.length_le
  rw [Machine.decode_eq word, Machine.decode_eq (by omega), same]

/-- Two rows: the digest in the first one is wrong, and the second one leads to a byte that
is not there. -/
def withheld : Bytes :=
  Header.toBytes { indexCount := 2, totalSize := 96 } ++
    (IndexEntry.toBytes { checksum := 0, offset := 0, length := 8, pathLength := 0 } ++
    IndexEntry.toBytes {
      checksum := Djb2.checksum [0x07]
      offset := 96
      length := 1
      pathLength := 0 })

/-- With that byte the second row is in order, and the report on the first one stands. -/
theorem decode_append_eq_withheld :
    IsSettled (decode withheld) ∧
      decode (withheld ++ [0x07]) =
        .error (.checksumMismatch 0 0 (Djb2.checksum Magic.archive.bytes)) ∧
      ¬ (withheld.row 1).InBounds 96 ∧ (withheld.row 1).InBounds 97 := by
  have reported : decode withheld =
      .error (.checksumMismatch 0 0 (Djb2.checksum Magic.archive.bytes)) := by
    cbv
  have settled : IsSettled (decode withheld) := by
    rw [reported]
    rfl
  have same := (decode_append_eq withheld [0x07] (by decide) settled).1
  refine ⟨settled, same.trans reported, ?_, ?_⟩
  · rintro ⟨-, -, -, stop⟩
    revert stop
    decide
  · constructor <;> decide

/-- **When a verdict stands.**  With one more byte or many, the verdict is the same if and
only if it was not on missing bytes, or it is on a row that is still out of bounds. -/
theorem decode_append_eq_iff {tail : Bytes} (more : tail ≠ []) :
    decode (buffer ++ tail) = decode buffer ↔
      IsSettled (decode buffer) ∨
        ∃ index offset length pathLength,
          decode buffer = .error (.entryOutOfBounds index offset length pathLength) ∧
            ¬ (buffer.row index).InBounds (buffer ++ tail).length := by
  have begins : buffer <+: buffer ++ tail := List.prefix_append buffer tail
  have longer : (buffer ++ tail).length ≠ buffer.length := by
    have positive := List.length_pos_iff.mpr more
    rw [List.length_append]
    omega
  constructor
  · intro same
    cases verdict : decode buffer with
    | ok records => exact Or.inl trivial
    | error e =>
        have first := ((decode_decides buffer).error_iff e).mp verdict
        have later := ((decode_decides _).error_iff e).mp (same.trans verdict)
        cases e with
        | invalidMagic | negativeIndexCount | checksumMismatch | invalidPath =>
            exact Or.inl rfl
        -- These two name the length of the buffer, which is not the same any more.
        | truncated needed available =>
            have named := first.available_eq_of_truncated
            exact absurd (later.available_eq_of_truncated.symm.trans named) longer
        | sizeMismatch declared available =>
            have named := first.available_eq_of_sizeMismatch
            exact absurd (later.available_eq_of_sizeMismatch.symm.trans named) longer
        | entryOutOfBounds =>
            obtain ⟨opens, inTable, -⟩ := first.not_inBounds
            obtain ⟨-, -, outside⟩ := later.not_inBounds
            rw [opens.row_eq begins inTable] at outside
            exact Or.inr ⟨_, _, _, _, rfl, outside⟩
        | io kind text => exact absurd rfl (first.ne_io kind text)
  · rintro (settled | ⟨index, offset, length, pathLength, verdict, outside⟩)
    · exact decode_eq_of_prefix begins settled
    · have first := ((decode_decides buffer).error_iff _).mp verdict
      rw [verdict]
      exact ((decode_decides _).error_iff _).mpr (first.of_not_inBounds begins outside)

end FlatArchive
