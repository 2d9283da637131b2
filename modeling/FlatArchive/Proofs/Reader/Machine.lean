import FlatArchive.Proofs.Reader.Contents
import FlatArchive.Reader.Machine

/-!
# The machine computes the reader

Each operation on the machine gives what the operation of the reader gives, and
never a fault, on every buffer that a word can measure.  There is one equation
for each operation, and callers use the equation and not the definition.

The checks that carry this are of two kinds.  Before the reader computes with a
number from a buffer, it has compared the number with the length of the buffer
(`Reader.tableEnd_succ_le`, `bounds_of_span?`).  And where it computes before it
compares, a sum that is no word is taken for a place past the end, which it is
(`tableFits_eq`, `dataRange?_eq`).
-/

namespace FlatArchive.Machine

/-- The archive that a reader has open. -/
def Opened.ofReader (reader : Reader) : Opened where
  bytes := reader.bytes
  header := reader.header
  count := reader.count

@[simp] theorem Opened.bytes_ofReader (reader : Reader) :
    (Opened.ofReader reader).bytes = reader.bytes := rfl

@[simp] theorem Opened.header_ofReader (reader : Reader) :
    (Opened.ofReader reader).header = reader.header := rfl

@[simp] theorem Opened.count_ofReader (reader : Reader) :
    (Opened.ofReader reader).count = reader.count := rfl

variable {buffer : Bytes} {reader : Reader} {index : Nat}

/-! ## Opening -/

theorem parseHeader_eq (buffer : Bytes) :
    parseHeader buffer = .ok (Header.parse buffer) := by
  unfold parseHeader
  rcases Nat.lt_or_ge buffer.length headerSize with short | long
  · rw [Header.parse_of_short short, if_pos short]
    rfl
  · rw [if_neg (Nat.not_lt.mpr long)]
    unfold headerSize at long
    rw [Checked.slice_eq_ok (by omega), Checked.slice_eq_ok (by omega),
      Checked.slice_eq_ok (by omega)]
    by_cases magic : buffer.slice 0 8 = Magic.archive.bytes
    · simp only [bind, Except.bind, if_neg (not_not_intro magic)]
      rw [Header.parse_of_magic long magic]
      rfl
    · simp only [bind, Except.bind, if_pos magic]
      rw [Header.parse_of_foreign long magic]
      rfl

theorem dataStart_eq (header : Header) : dataStart header = header.dataStart := by
  have nonneg : (max header.indexCount 0).toInt.toNat = header.indexCount.toInt.toNat := by
    by_cases negative : header.indexCount ≤ 0
    · have below := Int64.le_iff_toInt_le.mp negative
      rw [Int64.toInt_zero] at below
      rw [show max header.indexCount 0 = 0 from if_pos negative, Int64.toInt_zero]
      omega
    · rw [show max header.indexCount 0 = header.indexCount from if_neg negative]
  unfold dataStart saturatingAdd saturatingMul Header.dataStart tableEnd
  rw [nonneg]
  omega

/-- Multiplying and adding with checks finds out whether a table lies inside a
buffer. -/
theorem tableFits_eq (count : Nat) {length : Nat} (small : length < UInt64.size) :
    tableFits count length = decide (tableEnd count ≤ length) := by
  have table : tableEnd count = headerSize + count * entrySize := by
    rw [tableEnd, Nat.mul_comm]
  rw [table, tableFits]
  by_cases product : count * entrySize < UInt64.size
  · by_cases sum : headerSize + count * entrySize < UInt64.size
    · simp only [Checked.mul_eq_ok product, bind, Except.bind, Checked.add_eq_ok sum]
    · have outside : ¬ headerSize + count * entrySize ≤ length := by omega
      simp only [Checked.mul_eq_ok product, bind, Except.bind, Checked.add, if_neg sum,
        outside, decide_false]
  · have outside : ¬ headerSize + count * entrySize ≤ length := by omega
    simp only [Checked.mul, if_neg product, bind, Except.bind, outside, decide_false]

/-- Behind the header, the machine makes the comparisons of the reader. -/
theorem open?_of_parse {header : Header} (small : buffer.length < UInt64.size)
    (parsed : Header.parse buffer = .ok header) :
    open? buffer = .ok (
      if header.indexCount.toInt < 0 then
        .error (.negativeIndexCount header.indexCount.toInt)
      else if buffer.length < tableEnd header.indexCount.toInt.toNat then
        .error (.truncated header.dataStart buffer.length)
      else if header.totalSize.toInt < 0 ∨ buffer.length < header.totalSize.toInt then
        .error (.sizeMismatch header.totalSize.toInt buffer.length)
      else .ok (⟨buffer, header, header.indexCount.toInt.toNat⟩,
        buffer.length - header.totalSize.toInt.toNat)) := by
  have sign : ∀ x : Int64, x < 0 ↔ x.toInt < 0 := by
    intro x
    rw [Int64.lt_iff_toInt_lt, Int64.toInt_zero]
  unfold open?
  rw [parseHeader_eq, parsed]
  simp only [bind, Except.bind, sign, tableFits_eq _ small, dataStart_eq]
  by_cases negative : header.indexCount.toInt < 0
  · rw [if_pos negative, if_pos negative]
    rfl
  · rw [if_neg negative, if_neg negative]
    by_cases short : buffer.length < tableEnd header.indexCount.toInt.toNat
    · rw [if_pos short, if_pos (by simpa using short)]
      rfl
    · rw [if_neg short, if_neg (by simpa using short)]
      by_cases wrong : header.totalSize.toInt < 0 ∨ buffer.length < header.totalSize.toInt
      · rw [if_pos wrong, if_pos (by omega)]
        rfl
      · rw [if_neg wrong, if_neg (by omega), Checked.sub_eq_ok (by omega)]
        rfl

/-- **Opening on the machine** gives the reader's archive or the reader's
report. -/
theorem open?_eq (small : buffer.length < UInt64.size) :
    open? buffer = .ok ((Reader.ofBytes buffer).map fun reader =>
      (Opened.ofReader reader, reader.trailing)) := by
  unfold Reader.ofBytes
  split
  · next e parsed =>
    unfold open?
    rw [parseHeader_eq, parsed]
    rfl
  · next header parsed =>
    rw [open?_of_parse small parsed]
    split
    · rfl
    · split
      · rfl
      · split <;> rfl

/-! ## Single entries -/

theorem parse_slice {start : Nat} (inside : start + entrySize ≤ buffer.length) :
    IndexEntry.parse (buffer.slice start entrySize) =
      .ok (IndexEntry.ofBytes (buffer.slice start entrySize)) := by
  have whole : (buffer.slice start entrySize).slice 0 entrySize =
      buffer.slice start entrySize :=
    Bytes.slice_slice _ _ _ _ _ (Nat.le_of_eq (Nat.zero_add _))
  rw [IndexEntry.parse, Checked.slice_eq_ok, whole]
  · rfl
  · have length := Bytes.length_slice buffer start entrySize inside
    omega

/-- **The machine looks up** the entry that the reader looks up. -/
theorem indexEntryAt?_eq (small : reader.bytes.length < UInt64.size) (index : Nat) :
    indexEntryAt? (Opened.ofReader reader) index = .ok (reader.indexEntryAt? index) := by
  unfold indexEntryAt? Reader.indexEntryAt?
  rw [Opened.count_ofReader, Opened.bytes_ofReader]
  by_cases inTable : index < reader.count
  · have place : headerSize + index * entrySize = tableEnd index := by
      rw [tableEnd, Nat.mul_comm]
    have row : tableEnd index + entrySize ≤ reader.bytes.length :=
      Reader.tableEnd_succ_le inTable
    have product : index * entrySize < UInt64.size := by omega
    have start : headerSize + index * entrySize < UInt64.size := by omega
    have stop : tableEnd index + entrySize < UInt64.size := by omega
    rw [if_pos inTable, if_neg (Nat.not_le.mpr inTable)]
    simp only [Checked.mul_eq_ok product, bind, Except.bind, Checked.add_eq_ok start, place,
      Checked.add_eq_ok stop, Nat.add_sub_cancel_left, Checked.slice_eq_ok row,
      parse_slice row]
    rfl
  · rw [if_neg inTable, if_pos (Nat.not_lt.mp inTable)]
    rfl

/-- Checking a sum of words finds out what the exact sum says: two signed words
that are not negative have a word as their sum. -/
theorem dataRange?_eq (entry : IndexEntry) (archiveLength : Nat) :
    dataRange? entry archiveLength = entry.span? archiveLength := by
  have offsetBound := entry.offset.toInt_lt
  have lengthBound := entry.length.toInt_lt
  unfold dataRange? IndexEntry.span?
  simp only [Int64.lt_iff_toInt_lt, Int64.toInt_zero]
  by_cases negative :
      entry.offset.toInt < 0 ∨ entry.length.toInt < 0 ∨ entry.pathLength.toInt < 0
  · rw [if_pos negative, if_neg (by omega)]
  · rw [if_neg negative]
    by_cases long : entry.length.toInt.toNat < entry.pathLength.toInt.toNat
    · rw [if_pos long, if_neg (by omega)]
    · have word : entry.offset.toInt.toNat + entry.length.toInt.toNat < UInt64.size := by
        unfold UInt64.size
        omega
      rw [if_neg long, Checked.add_eq_ok word]
      simp only
      by_cases inside :
          entry.offset.toInt.toNat + entry.length.toInt.toNat ≤ archiveLength
      · have stop : (entry.offset.toInt + entry.length.toInt).toNat =
            entry.offset.toInt.toNat + entry.length.toInt.toNat := by omega
        rw [if_pos inside, if_pos (by omega), stop]
      · rw [if_neg inside, if_neg (by omega)]

/-- What `span?` accepts lies inside the buffer, and the path inside the block. -/
theorem bounds_of_span? {entry : IndexEntry} {size : Nat} {span : Span}
    (found : entry.span? size = some span) :
    span.start ≤ span.stop ∧ span.stop ≤ size ∧
      entry.pathLength.toInt.toNat ≤ span.stop - span.start := by
  unfold IndexEntry.span? at found
  simp only at found
  split at found
  · next inBounds =>
    obtain rfl := Option.some.inj found
    simp only
    omega
  · cases found

/-- **The machine judges** an entry as the reader does. -/
theorem validate_eq (archive : Opened) (index : Nat) (entry : IndexEntry) :
    validate archive index entry = .ok (
      match entry.span? archive.bytes.length with
      | none => .error (.entryOutOfBounds index entry.offset.toInt entry.length.toInt
          entry.pathLength.toInt)
      | some span => entry.judge index (archive.bytes.within span)) := by
  unfold validate
  rw [dataRange?_eq]
  cases found : entry.span? archive.bytes.length with
  | none => rfl
  | some span =>
      obtain ⟨ordered, inside, path⟩ := bounds_of_span? found
      have block : span.start + (span.stop - span.start) ≤ archive.bytes.length := by omega
      have cut : entry.pathLength.toInt.toNat ≤
          (archive.bytes.slice span.start (span.stop - span.start)).length := by
        rw [Bytes.length_slice _ _ _ block]
        exact path
      simp only [Checked.sub_eq_ok ordered, bind, Except.bind, Checked.slice_eq_ok block]
      unfold IndexEntry.judge Bytes.within
      simp only
      by_cases digest :
          Djb2.checksum (archive.bytes.slice span.start (span.stop - span.start)) =
            entry.checksum
      · rw [if_neg (not_not_intro digest), if_neg (not_not_intro digest),
          Checked.splitAt_eq_ok cut]
        simp only
        cases Utf8.decode ((archive.bytes.slice span.start (span.stop - span.start)).take
          entry.pathLength.toInt.toNat) <;> rfl
      · rw [if_pos digest, if_pos digest]
        rfl

/-- The machine gives the file of an entry as the reader does. -/
theorem entryAt?_eq (small : reader.bytes.length < UInt64.size) (index : Nat) :
    entryAt? (Opened.ofReader reader) index = .ok (reader.entryAt? index) := by
  unfold entryAt? Reader.entryAt?
  rw [indexEntryAt?_eq small]
  unfold Reader.indexEntryAt?
  by_cases inTable : index < reader.count
  · simp only [if_pos inTable, bind, Except.bind, validate_eq]
    rfl
  · simp only [if_neg inTable, bind, Except.bind]
    rfl

/-! ## Going through the table -/

theorem count_lt_size (small : reader.bytes.length < UInt64.size) :
    reader.count + 1 < UInt64.size := by
  have table := reader.tableEnd_le
  unfold tableEnd headerSize entrySize at table
  unfold Reader.count
  omega

/-- One step of a place that has not failed. -/
theorem next_eq (small : reader.bytes.length < UInt64.size) (place : Nat)
    (inTable : place < reader.count) :
    Walker.next (Opened.ofReader reader) ⟨place, false⟩ =
      .ok (some (reader.entryAt place), ⟨place + 1, !(reader.entryAt place).isOk⟩) := by
  have below := count_lt_size small
  unfold Walker.next
  simp only [entryAt?_eq small, Reader.entryAt?, if_pos inTable, bind, Except.bind,
    Checked.add_eq_ok (show place + 1 < UInt64.size by omega)]
  rfl

/-- The records from a place on are those that the reader gives from there on. -/
theorem records_eq (small : reader.bytes.length < UInt64.size) :
    ∀ steps place : Nat, place + steps = reader.count + 1 → place ≤ reader.count →
      Walker.records (Opened.ofReader reader) ⟨place, false⟩ steps =
        .ok ((List.range' place (reader.count - place)).mapM fun index =>
          (reader.entryAt index).map Entry.toRecord) := by
  intro steps
  -- there is one step more than rows left, so the steps cannot run out first
  induction steps with
  | zero =>
      intro place total inside
      omega
  | succ steps ih =>
      intro place total inside
      unfold Walker.records
      rcases Nat.lt_or_ge place reader.count with inTable | done
      · obtain ⟨left, more⟩ : ∃ left, reader.count - place = left + 1 :=
          ⟨reader.count - place - 1, by omega⟩
        have later := ih (place + 1) (by omega) inTable
        rw [show reader.count - (place + 1) = left by omega] at later
        simp only [next_eq small place inTable, bind, Except.bind]
        rw [more, List.range'_succ, List.mapM_cons]
        cases judged : reader.entryAt place with
        | error e => rfl
        | ok entry =>
            have moved : (!(Except.ok entry : Except ArchiveError Entry).isOk) = false := rfl
            simp only [moved, later]
            cases (List.range' (place + 1) left).mapM fun index =>
              (reader.entryAt index).map Entry.toRecord <;> rfl
      · have outside : ¬ place < reader.count := Nat.not_lt.mpr done
        rw [show reader.count - place = 0 by omega]
        unfold Walker.next
        simp only [entryAt?_eq small, Reader.entryAt?, if_neg outside, bind, Except.bind]
        rfl

/-- **Reading on the machine** gives what reading gives, and never a fault. -/
theorem decode_eq (small : buffer.length < UInt64.size) :
    decode buffer = .ok (FlatArchive.decode buffer) := by
  unfold decode
  rw [open?_eq small]
  rcases Reader.ofBytes_cases buffer with ⟨reader, opened, rfl⟩ | ⟨e, opened, defect⟩
  · rw [opened, decode_bytes, List.range_eq_range']
    exact records_eq small (reader.count + 1) 0 (Nat.zero_add _) (Nat.zero_le _)
  · rw [opened, decode_of_headerDefect defect]
    rfl

end FlatArchive.Machine
