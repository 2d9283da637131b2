import FlatArchive.Proofs.Layout.RoundTrip
import FlatArchive.Proofs.Reader.Machine
import FlatArchive.RoundTrip.Checked
import Mathlib

/-!
# What a round trip accepts

What comes out of an archive are the records that went in, each with the size of its content
(`Layout.decode_encode_eq`).  To compare them with what went in is therefore to look for the
first record whose size field is wrong, and this is the only thing that a round trip can
find: it is accepted if all sizes are right, and otherwise the first wrong one is reported
(`verify_result`).

On a machine no sum faults, whatever the sizes claim.  They are added up only when they are
those of the contents, which fit in the archive.
-/

namespace FlatArchive

/-- The size of the record is that of its content. -/
def FileRecord.IsMeasured (record : FileRecord) : Prop :=
  record.size.toNat = record.data.length

namespace Layout

variable {records : List FileRecord}

/-- A record comes out as it went in exactly if its size is that of its content. -/
theorem measured_eq_iff (fits : FitsWords records) {record : FileRecord}
    (member : record ∈ records) : record.measured = record ↔ record.IsMeasured := by
  have size := toNat_size_measured fits member
  constructor
  · intro same
    rwa [same] at size
  · intro measured
    have sizes : record.measured.size = record.size :=
      UInt64.toNat_inj.mp (size.trans measured.symm)
    exact FileRecord.ext rfl sizes rfl

/-! ## Sizes -/

/-- Blocks take the lengths of paths and contents together, and a slash for each path. -/
theorem blocksSize_eq_sum (records : List FileRecord) :
    blocksSize records =
      (records.map fun record =>
        1 + (Utf8.encode record.path).length + record.data.length).sum := by
  induction records with
  | nil => rfl
  | cons record rest ih =>
      rw [blocksSize, ih, List.map_cons, List.sum_cons]
      rfl

end Layout

namespace RoundTrip

variable {records : List FileRecord}

theorem contentSize_eq_sum (measured : ∀ record ∈ records, record.IsMeasured) :
    contentSize records = (records.map fun record => record.data.length).sum := by
  induction records with
  | nil => rfl
  | cons record rest ih =>
      obtain ⟨first, others⟩ := List.forall_mem_cons.mp measured
      rw [contentSize, ih others, first, List.map_cons, List.sum_cons]

/-- The contents fit in the blocks. -/
theorem contentSize_le (measured : ∀ record ∈ records, record.IsMeasured) :
    contentSize records ≤ Layout.blocksSize records := by
  induction records with
  | nil => exact Nat.le_refl 0
  | cons record rest ih =>
      obtain ⟨first, others⟩ := List.forall_mem_cons.mp measured
      have less := ih others
      rw [contentSize, first, Layout.blocksSize, FileRecord.blockLength]
      omega

/-! ## The first record that comes out different -/

/-- Comparing goes on as long as records come out as they went in. -/
theorem firstMismatch_cases (change : FileRecord → FileRecord) :
    ∀ (records : List FileRecord) (start : Nat),
      (firstMismatch start records (records.map change) = none ∧
          ∀ record ∈ records, change record = record) ∨
        ∃ (index : Nat) (inside : index < records.length),
          firstMismatch start records (records.map change) =
              some (start + index, records[index].path) ∧
            change records[index] ≠ records[index] ∧
            ∀ j (earlier : j < index), change records[j] = records[j] := by
  intro records
  induction records with
  | nil => exact fun start => Or.inl ⟨rfl, fun record member => absurd member List.not_mem_nil⟩
  | cons record rest ih =>
      intro start
      rw [List.map_cons, firstMismatch]
      by_cases same : change record = record
      · rw [if_pos same.symm]
        rcases ih (start + 1) with ⟨none, all⟩ | ⟨index, inside, found, differs, before⟩
        · exact Or.inl ⟨none, List.forall_mem_cons.mpr ⟨same, all⟩⟩
        · refine Or.inr ⟨index + 1, Nat.succ_lt_succ inside, ?_, differs, ?_⟩
          · rw [found, Nat.add_assoc, Nat.add_comm 1]
            rfl
          · rintro (_ | j) earlier
            · exact same
            · exact before j (Nat.lt_of_succ_lt_succ earlier)
      · rw [if_neg fun equal => same equal.symm]
        refine Or.inr ⟨0, Nat.succ_pos _, rfl, same, ?_⟩
        intro j earlier
        exact absurd earlier (Nat.not_lt_zero j)

/-! ## Verdicts -/

/-- What is reported of an accepted round trip. -/
def reportOf (records : List FileRecord) : RoundTripReport where
  files := records.length
  contentBytes := (records.map fun record => record.data.length).sum
  archiveBytes := 24 + 36 * records.length +
    (records.map fun record => 1 + (Utf8.encode record.path).length + record.data.length).sum

theorem reportOf_eq (measured : ∀ record ∈ records, record.IsMeasured) :
    reportOf records = {
      files := records.length
      contentBytes := contentSize records
      archiveBytes := (Layout.encode records).length } := by
  rw [reportOf, contentSize_eq_sum measured, Layout.length_encode, Layout.totalSize,
    Layout.blocksSize_eq_sum]
  rfl

/-- Nothing is found, and the sizes are those of the contents: their sum is a word. -/
theorem verify_of_measured (fits : Layout.FitsWords records)
    (measured : ∀ record ∈ records, record.IsMeasured)
    (none : firstMismatch 0 records (records.map FileRecord.measured) = none) :
    verify records = .ok (reportOf records) ∧ verify? records = .ok (.ok (reportOf records)) := by
  have word := Layout.totalSize_lt_size fits
  have length := Layout.length_encode_lt_size fits
  have sum : 0 + contentSize records < UInt64.size := by
    have content := contentSize_le measured
    unfold Layout.totalSize at word
    omega
  rw [reportOf_eq measured]
  constructor
  · unfold verify
    simp only [Layout.decode_encode_eq fits, List.length_map, ne_eq, not_true_eq_false,
      if_false, none]
  · unfold verify?
    simp only [Layout.encode?_eq word, bind, Except.bind, Machine.decode_eq length,
      Layout.decode_encode_eq fits, List.length_map, ne_eq, not_true_eq_false, if_false, none,
      contentSize?_eq records 0 sum, Nat.zero_add]
    rfl

/-- Something is found, and the sizes are not added up. -/
theorem verify_of_mismatch (fits : Layout.FitsWords records) {index : Nat} {path : String}
    (found : firstMismatch 0 records (records.map FileRecord.measured) = some (index, path)) :
    verify records = .error (.recordMismatch index path) ∧
      verify? records = .ok (.error (.recordMismatch index path)) := by
  have word := Layout.totalSize_lt_size fits
  have length := Layout.length_encode_lt_size fits
  constructor
  · unfold verify
    simp only [Layout.decode_encode_eq fits, List.length_map, ne_eq, not_true_eq_false,
      if_false, found]
  · unfold verify?
    simp only [Layout.encode?_eq word, bind, Except.bind, Machine.decode_eq length,
      Layout.decode_encode_eq fits, List.length_map, ne_eq, not_true_eq_false, if_false, found]
    rfl

/-- A round trip looks at the sizes: either all of them are right, or one is the first that
is not. -/
theorem verify_cases (fits : Layout.FitsWords records) :
    ((∀ record ∈ records, record.IsMeasured) ∧
        verify records = .ok (reportOf records) ∧
        verify? records = .ok (.ok (reportOf records))) ∨
      ∃ (index : Nat) (inside : index < records.length),
        ¬ records[index].IsMeasured ∧ (∀ j (earlier : j < index), records[j].IsMeasured) ∧
          verify records = .error (.recordMismatch index records[index].path) ∧
          verify? records = .ok (.error (.recordMismatch index records[index].path)) := by
  have compared : ∀ record ∈ records, record.measured = record ↔ record.IsMeasured :=
    fun record member => Layout.measured_eq_iff fits member
  rcases firstMismatch_cases FileRecord.measured records 0 with
    ⟨none, same⟩ | ⟨index, inside, found, differs, before⟩
  · have measured : ∀ record ∈ records, record.IsMeasured := by
      intro record member
      exact (compared record member).mp (same record member)
    exact Or.inl ⟨measured, verify_of_measured fits measured none⟩
  · rw [Nat.zero_add] at found
    refine Or.inr ⟨index, inside, ?_, ?_, verify_of_mismatch fits found⟩
    · rwa [← compared _ (List.getElem_mem inside)]
    · intro j earlier
      exact (compared _ (List.getElem_mem _)).mp (before j earlier)

/-- Nothing overflows on records whose archive is counted by words. -/
theorem verify?_eq (fits : Layout.FitsWords records) : verify? records = .ok (verify records) := by
  rcases verify_cases fits with ⟨-, ended, checked⟩ | ⟨_, _, -, -, ended, checked⟩
  · rw [ended, checked]
  · rw [ended, checked]

theorem verify_decides (fits : Layout.FitsWords records) :
    Decides (verify records)
      (fun report => (∀ record ∈ records, record.IsMeasured) ∧ report = reportOf records)
      (fun e => ∃ (index : Nat) (inside : index < records.length),
        ¬ records[index].IsMeasured ∧ (∀ j (earlier : j < index), records[j].IsMeasured) ∧
          e = .recordMismatch index records[index].path) := by
  apply Decides.of_cases
  · rcases verify_cases fits with
      ⟨measured, ended, -⟩ | ⟨index, inside, differs, before, ended, -⟩
    · exact Or.inl ⟨_, ended, measured, rfl⟩
    · exact Or.inr ⟨_, ended, index, inside, differs, before, rfl⟩
  · rintro a b ⟨-, rfl⟩ ⟨-, rfl⟩
    rfl
  · rintro e e' ⟨i, _, differs, before, rfl⟩ ⟨i', _, differs', before', rfl⟩
    -- before the first of the two all sizes are right
    rcases Nat.lt_trichotomy i i' with earlier | rfl | later
    · exact absurd (before' i earlier) differs
    · rfl
    · exact absurd (before i' later) differs'
  · rintro report e ⟨measured, -⟩ ⟨index, inside, differs, -, -⟩
    exact differs (measured _ (List.getElem_mem inside))

/-- **What a round trip ends in**, whatever sizes the records claim.  It is accepted if and
only if each size is that of the content, with the numbers of files and bytes in the report;
and the one thing that it can report is the first record whose size is another.  No check of
a machine fails on the way. -/
theorem verify_result (records : List FileRecord) (fits : Layout.totalSize records < 2 ^ 63) :
    verify? records = .ok (verify records) ∧
      (∀ report, verify records = .ok report ↔
        (∀ record ∈ records, record.size.toNat = record.data.length) ∧
          report = {
            files := records.length
            contentBytes := (records.map fun record => record.data.length).sum
            archiveBytes := 24 + 36 * records.length +
              (records.map fun record =>
                1 + (Utf8.encode record.path).length + record.data.length).sum }) ∧
      ∀ e, verify records = .error e ↔
        ∃ (index : Nat) (inside : index < records.length),
          records[index].size.toNat ≠ records[index].data.length ∧
            (∀ j (earlier : j < index), records[j].size.toNat = records[j].data.length) ∧
            e = .recordMismatch index records[index].path := by
  have words := Layout.fitsWords_iff.mpr fits
  have decides := verify_decides words
  exact ⟨verify?_eq words, decides.ok_iff, decides.error_iff⟩

/-- Two records that claim more than a word can count together. -/
def overstated : List FileRecord :=
  [⟨"a", 1, [0x01]⟩, ⟨"b", 0xFFFFFFFFFFFFFFFF, [0x02]⟩, ⟨"c", 0xFFFFFFFFFFFFFFFF, []⟩]

/-- The first of them is reported, on a machine too; without them the round trip is accepted. -/
theorem verify_result_overstated :
    verify? overstated = .ok (.error (.recordMismatch 1 "b")) ∧
      verify (overstated.take 1) = .ok ⟨1, 1, 63⟩ := by
  have whole := verify_result overstated (by decide)
  have reported : verify overstated = .error (.recordMismatch 1 "b") := by
    refine (whole.2.2 _).mpr ⟨1, by decide, by decide, ?_, rfl⟩
    intro j earlier
    obtain rfl : j = 0 := Nat.lt_one_iff.mp earlier
    rfl
  refine ⟨?_, ((verify_result (overstated.take 1) (by decide)).2.1 _).mpr ⟨by decide, ?_⟩⟩
  · rw [whole.1, reported]
  · decide

end RoundTrip

end FlatArchive
