import FlatArchive.Layout.Checked
import FlatArchive.Reader.Machine
import FlatArchive.RoundTrip

/-!
# The round trip on a machine

Encoding and decoding compute with words here, and so does the sum of the sizes in the
report.  These sizes are claimed by whoever made the records, and any two of them may have a
sum that is no word.  They are not added up before the records have come out as they went
in, and by then each of them is the size of some content.
-/

namespace FlatArchive.RoundTrip

/-- The bytes of content in some records, added to `sum`. -/
def contentSize? : (sum : Nat) → List FileRecord → Checked Nat
  | sum, [] => .ok sum
  | sum, record :: rest => do
    contentSize? (← Checked.add sum record.size.toNat) rest

/-- Encodes, decodes and compares. -/
def verify? (records : List FileRecord) :
    Checked (Except RoundTripError RoundTripReport) := do
  let archive ← Layout.encode? records
  match ← Machine.decode archive with
  | .error cause => return .error (.archive cause)
  | .ok decoded =>
    if decoded.length ≠ records.length then
      return .error (.countMismatch records.length decoded.length)
    match firstMismatch 0 records decoded with
    | some (index, path) => return .error (.recordMismatch index path)
    | none =>
      return .ok {
        files := records.length
        contentBytes := ← contentSize? 0 records
        archiveBytes := archive.length }

/-- The running sum is at most the last one, which is a word. -/
theorem contentSize?_eq :
    ∀ (records : List FileRecord) (sum : Nat), sum + contentSize records < UInt64.size →
      contentSize? sum records = .ok (sum + contentSize records) := by
  intro records
  induction records with
  | nil => exact fun sum _ => rfl
  | cons record rest ih =>
      intro sum word
      rw [contentSize, ← Nat.add_assoc] at word
      have next : sum + record.size.toNat < UInt64.size := by omega
      unfold contentSize?
      simp only [Checked.add_eq_ok next, bind, Except.bind]
      rw [ih _ word, contentSize, Nat.add_assoc]

end FlatArchive.RoundTrip
