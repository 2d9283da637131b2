import FlatArchive.Proofs.Reader.Machine
import Mathlib

/-!
# Which fields give a block

The three signed fields of an entry are in the hands of whoever wrote the archive.  A machine
checks each sign, compares the path with the block, and adds with a check before it compares
with the end of the buffer.  What these checks come to is one condition in integers without
bounds, `Row.InBounds` (`dataRange?_eq_some_iff`), and nobody has to check an entry again that
met it: the size of its content is a word, and no larger than the archive
(`dataSize_of_inBounds`).
-/

namespace FlatArchive.IndexEntry

variable {entry : IndexEntry} {archiveLength : Nat} {span : Span}

/-- The condition in the fields of an entry. -/
theorem inBounds_row_iff :
    entry.row.InBounds archiveLength ↔
      0 ≤ entry.offset.toInt ∧ 0 ≤ entry.pathLength.toInt ∧
        entry.pathLength.toInt ≤ entry.length.toInt ∧
        entry.offset.toInt + entry.length.toInt ≤ archiveLength :=
  ⟨fun ⟨offset, pathLength, path, stop⟩ => ⟨offset, pathLength, path, stop⟩,
    fun ⟨offset, pathLength, path, stop⟩ => ⟨offset, pathLength, path, stop⟩⟩

/-- **Which fields give a block**, and which block that is. -/
theorem dataRange?_eq_some_iff :
    Machine.dataRange? entry archiveLength = some span ↔
      entry.row.InBounds archiveLength ∧ (span.start : Int) = entry.offset.toInt ∧
        (span.stop : Int) = entry.offset.toInt + entry.length.toInt := by
  rw [Machine.dataRange?_eq]
  by_cases inBounds : entry.row.InBounds archiveLength
  · obtain ⟨offset, pathLength, path, -⟩ := inBounds_row_iff.mp inBounds
    obtain ⟨start, stop⟩ := span
    rw [span?_of_inBounds inBounds, row, Option.some.injEq, Span.mk.injEq]
    constructor
    · rintro ⟨first, last⟩
      refine ⟨inBounds, ?_, ?_⟩
      · dsimp only at first ⊢
        omega
      · dsimp only at last ⊢
        omega
    · rintro ⟨-, first, last⟩
      dsimp only at first last ⊢
      omega
  · rw [span?_of_not_inBounds inBounds]
    simp only [reduceCtorEq, inBounds, false_and]

theorem dataRange?_eq_none_iff :
    Machine.dataRange? entry archiveLength = none ↔ ¬ entry.row.InBounds archiveLength := by
  rw [Machine.dataRange?_eq]
  by_cases inBounds : entry.row.InBounds archiveLength
  · simp only [span?_of_inBounds inBounds, reduceCtorEq, inBounds, not_true_eq_false]
  · simp only [span?_of_not_inBounds inBounds, inBounds, not_false_eq_true]

/-- The content of a block inside the archive has a size that is a word. -/
theorem dataSize_of_inBounds (inBounds : entry.row.InBounds archiveLength) :
    ∃ size, entry.dataSize = .ok size ∧
      size.toInt = entry.length.toInt - entry.pathLength.toInt := by
  obtain ⟨-, pathLength, path, -⟩ := inBounds_row_iff.mp inBounds
  have word := entry.length.toInt_lt
  have exact : (Int64.ofInt (entry.length.toInt - entry.pathLength.toInt)).toInt =
      entry.length.toInt - entry.pathLength.toInt :=
    Int64.toInt_ofInt_of_le (by omega) (by omega)
  exact ⟨_, Checked.signedSub_eq_ok_iff.mpr exact, exact⟩

/-- **A block is found exactly where the fields make sense** in integers without bounds, and it
is the block that the fields describe.  Wherever one is found, the size of its content can be
computed: it is what the path leaves of the block, and lies between nothing and the archive. -/
theorem dataRange?_exact (entry : IndexEntry) (archiveLength : Nat) :
    (∀ span, Machine.dataRange? entry archiveLength = some span ↔
      entry.row.InBounds archiveLength ∧ (span.start : Int) = entry.offset.toInt ∧
        (span.stop : Int) = entry.offset.toInt + entry.length.toInt) ∧
    (Machine.dataRange? entry archiveLength = none ↔ ¬ entry.row.InBounds archiveLength) ∧
    entry.span? archiveLength = Machine.dataRange? entry archiveLength ∧
    ∀ span, Machine.dataRange? entry archiveLength = some span →
      ∃ size, entry.dataSize = .ok size ∧
        size.toInt = ((span.stop : Int) - span.start) - entry.pathLength.toInt ∧
        0 ≤ size.toInt ∧ size.toInt ≤ archiveLength := by
  refine ⟨fun span => dataRange?_eq_some_iff, dataRange?_eq_none_iff,
    (Machine.dataRange?_eq entry archiveLength).symm, fun span found => ?_⟩
  obtain ⟨inBounds, start, stop⟩ := dataRange?_eq_some_iff.mp found
  obtain ⟨size, computed, exact⟩ := dataSize_of_inBounds inBounds
  obtain ⟨offset, pathLength, path, inside⟩ := inBounds_row_iff.mp inBounds
  exact ⟨size, computed, by omega, by omega, by omega⟩

/-- The greatest offset and the greatest length together: the block ends where the greatest
archive could, and one byte less is too few. -/
theorem dataRange?_exact_limits :
    let entry : IndexEntry := {
      checksum := 0
      offset := Int64.maxValue
      length := Int64.maxValue
      pathLength := 0 }
    Machine.dataRange? entry (2 ^ 64 - 2) = some ⟨2 ^ 63 - 1, 2 ^ 64 - 2⟩ ∧
      Machine.dataRange? entry (2 ^ 64 - 3) = none ∧
      ∃ size, entry.dataSize = .ok size ∧ size.toInt = 2 ^ 63 - 1 := by
  intro entry
  have inBounds : entry.row.InBounds (2 ^ 64 - 2) := inBounds_row_iff.mpr (by decide)
  have found : Machine.dataRange? entry (2 ^ 64 - 2) = some ⟨2 ^ 63 - 1, 2 ^ 64 - 2⟩ :=
    ((dataRange?_exact entry _).1 _).mpr ⟨inBounds, by decide, by decide⟩
  have short : ¬ entry.row.InBounds (2 ^ 64 - 3) := fun inBounds =>
    absurd inBounds.stop_le (by decide)
  obtain ⟨size, computed, exact, -⟩ := (dataRange?_exact entry _).2.2.2 _ found
  exact ⟨found, (dataRange?_exact entry _).2.1.mpr short, size, computed, exact⟩

end FlatArchive.IndexEntry
