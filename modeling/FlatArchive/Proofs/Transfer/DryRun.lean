import FlatArchive.CommandLine.Run
import FlatArchive.Proofs.RoundTrip
import FlatArchive.Proofs.Transfer.Collection
import FlatArchive.Proofs.Transfer.Packing
import Mathlib

/-!
# Testing a directory and packing it

A test takes a directory through the round trip in memory, where packing writes to a file, and
the two lay out an archive in different ways.  They agree all the same.  A walk gives every
record the size of its content (`collect_measured`), and such records come out of an archive
as they went in.  So nothing can be wrong but what already stopped the walk, and the numbers
in the report are those of the archive that packing writes (`selfTest_foretells_pack`).
-/

namespace FlatArchive

/-! ## The records of a walk -/

namespace Findings

/-- Every record that was taken up has the size of its content. -/
def Measured (findings : Findings) : Prop :=
  ∀ record ∈ findings.records, record.measured = record

theorem Measured.andThen {first : Findings} {next : Unit → Findings} (here : first.Measured)
    (others : (next ()).Measured) : (first.andThen next).Measured := by
  unfold Findings.andThen
  split
  · exact here
  · intro record member
    rcases List.mem_append.mp member with inside | behind
    · exact here record inside
    · exact others record behind

theorem measured_empty : Findings.empty.Measured := by
  simp [Measured, empty]

theorem measured_failed (e : IoError) : (Findings.failed e).Measured := by
  simp [Measured, failed]

theorem toExcept_eq_ok_iff {findings : Findings} {records : List FileRecord} :
    findings.toExcept = .ok records ↔ findings.failure = none ∧ findings.records = records := by
  unfold toExcept
  split
  · next stopped => simp [stopped]
  · next ended => simp [ended]

end Findings

namespace FileSystem

variable {files : FileSystem} {follow : Bool} {directory : PathText}

/-- The size of a record is taken from the content that was read. -/
theorem takeUp_measured (files : FileSystem) (path : PathText) (names : List Name) :
    (files.takeUp path names).Measured := by
  rcases takeUp_cases files path names with ⟨none, -⟩ | ⟨text, data, -, -, taken⟩
  · simp [Findings.Measured, none]
  · intro record member
    rw [taken] at member
    obtain rfl := List.mem_singleton.mp member
    rfl

/-- **Every record that a walk takes up has the size of its content**, wherever it starts and
wherever it stops. -/
theorem collect_measured (files : FileSystem) (follow : Bool) (root : PathText) :
    (files.collect follow root).Measured := by
  refine walkTree_of_visits (fun met => ?_) Findings.measured_empty Findings.measured_failed
    (fun _ _ => .andThen) follow root
  unfold gather
  split
  · exact takeUp_measured files _ _
  · exact Findings.measured_empty

theorem measured_of_collect {records : List FileRecord}
    (collected : (files.collect follow directory).toExcept = .ok records) :
    ∀ record ∈ records, record.measured = record := by
  obtain ⟨-, rfl⟩ := Findings.toExcept_eq_ok_iff.mp collected
  exact collect_measured files follow directory

theorem isMeasured_of_collect {records : List FileRecord}
    (collected : (files.collect follow directory).toExcept = .ok records)
    (fits : Layout.FitsWords records) : ∀ record ∈ records, record.IsMeasured :=
  fun record member =>
    (Layout.measured_eq_iff fits member).mp (measured_of_collect collected record member)

/-! ## The test -/

/-- Where the walk is stopped, so is the test. -/
theorem selfTest_of_error {e : IoError}
    (stopped : (files.collect follow directory).toExcept = .error e) :
    (files.selfTest follow directory).2 = .error (.io e) := by
  unfold selfTest
  simp only [stopped]

/-- What was collected passes the test, on a machine too. -/
theorem selfTest_of_ok {records : List FileRecord}
    (collected : (files.collect follow directory).toExcept = .ok records)
    (fits : Layout.FitsWords records) :
    (files.selfTest follow directory).2 = .ok (RoundTrip.reportOf records) ∧
      RoundTrip.verify? records = .ok (.ok (RoundTrip.reportOf records)) := by
  have accepted := ((RoundTrip.verify_decides fits).ok_iff _).mpr
    ⟨isMeasured_of_collect collected fits, rfl⟩
  refine ⟨?_, by rw [RoundTrip.verify?_eq fits, accepted]⟩
  unfold selfTest
  simp only [collected, accepted]

/-- What was collected comes out of the archive that it is packed into. -/
theorem pack_of_ok {records : List FileRecord} {archive : PathText} {created : FileSystem}
    (collected : (files.collect follow directory).toExcept = .ok records)
    (fits : Layout.FitsWords records) (possible : files.writeFile archive [] = .ok created) :
    (files.pack follow directory archive).result =
        .ok ⟨records.length, (Layout.encode records).length⟩ ∧
      (files.pack follow directory archive).files.read archive = .ok (Layout.encode records) ∧
      decode (Layout.encode records) = .ok records := by
  have same : records.map FileRecord.measured = records :=
    (List.map_congr_left (measured_of_collect collected)).trans (List.map_id records)
  obtain ⟨ended, rfl⟩ := Findings.toExcept_eq_ok_iff.mp collected
  obtain ⟨after, written⟩ :=
    writeFile_other possible (Layout.encode (files.collect follow directory).records)
  obtain ⟨result, packed⟩ := pack_eq_ok_iff.mpr ⟨ended, written, rfl⟩
  have decoded := Layout.decode_encode_eq fits
  rw [same] at decoded
  rw [packed, Layout.length_encode]
  exact ⟨result, read_of_writeFile written, decoded⟩

/-- **A test foretells packing.**  It succeeds if and only if the files can be collected, and
what stopped the walk is all that it can report; the tree is left as it is.  Packing the same
directory, into any file that can be made, then reports as many files and bytes, and the archive
that it writes holds as many bytes of content as the test has counted. -/
theorem selfTest_foretells_pack (files : FileSystem) (follow : Bool) (directory : PathText)
    (fits : ∀ records, (files.collect follow directory).toExcept = .ok records →
      Layout.totalSize records < 2 ^ 63) :
    let found := (files.collect follow directory).toExcept
    let tested := (files.selfTest follow directory).2
    ((∃ report, tested = .ok report) ↔ ∃ records, found = .ok records) ∧
      (∀ e, tested = .error e ↔ ∃ cause, found = .error cause ∧ e = .io cause) ∧
      (∀ records, found = .ok records → RoundTrip.verify? records = .ok tested) ∧
      (∀ verbose, (CommandLine.Invocation.run ⟨verbose, .test directory follow⟩ files).files =
        files) ∧
      ∀ report, tested = .ok report →
        ∀ archive created, files.writeFile archive [] = .ok created →
          let packed := files.pack follow directory archive
          packed.result = .ok ⟨report.files, report.archiveBytes⟩ ∧
            ∃ bytes records, packed.files.read archive = .ok bytes ∧
              bytes.length = report.archiveBytes ∧ decode bytes = .ok records ∧
              (records.map fun record => record.data.length).sum = report.contentBytes := by
  intro found tested
  have unchanged : ∀ verbose,
      (CommandLine.Invocation.run ⟨verbose, .test directory follow⟩ files).files = files := by
    intro verbose
    unfold CommandLine.Invocation.run
    dsimp only
    cases (files.selfTest follow directory).2 with
    | ok report => rfl
    | error e => rfl
  cases collected : found with
  | error cause =>
      have failed : tested = .error (.io cause) := selfTest_of_error collected
      rw [failed]
      exact ⟨by simp, by simp [eq_comm], by simp, unchanged, by simp⟩
  | ok records =>
      have words := Layout.fitsWords_iff.mpr (fits records collected)
      obtain ⟨passed, checked⟩ := selfTest_of_ok collected words
      have passed : tested = .ok (RoundTrip.reportOf records) := passed
      rw [passed]
      refine ⟨by simp, by simp, ?_, unchanged, ?_⟩
      · rintro _ ⟨⟩
        exact checked
      -- The file is made empty first, and what was written to it is read back from there.
      · rintro _ ⟨⟩ archive created possible packed
        obtain ⟨result, read, decoded⟩ := pack_of_ok collected words possible
        have bytes : (Layout.encode records).length =
            (RoundTrip.reportOf records).archiveBytes := by
          rw [RoundTrip.reportOf_eq (isMeasured_of_collect collected words)]
        refine ⟨?_, _, records, read, bytes, decoded, rfl⟩
        rw [result, bytes]
        rfl

/-- Two files, one of them in a directory below, are packed beside them; and a directory that is
not there. -/
theorem selfTest_foretells_pack_nested :
    let files : FileSystem :=
      ⟨[([0x64], .dir [([0x61], .file [1, 2]), ([0x73], .dir [([0x62], .file [3])])])]⟩
    let packed := files.pack false [0x64] [0x64, slash, 0x6F]
    (files.selfTest false [0x64]).2 = .ok ⟨2, 3, 105⟩ ∧
      packed.result = .ok ⟨2, 105⟩ ∧
      (∃ bytes records, packed.files.read [0x64, slash, 0x6F] = .ok bytes ∧
        decode bytes = .ok records ∧ (records.map fun record => record.data.length).sum = 3) ∧
      (files.selfTest false [0x65]).2 = .error (.io (.walk [0x65] .notFound)) := by
  intro files packed
  have found : files.collect false [0x64] =
      { records := [.ofFile "a" [1, 2], .ofFile "s/b" [3]] } := by cbv
  have missing : files.collect false [0x65] = .failed (.walk [0x65] .notFound) := by cbv
  have collected : (files.collect false [0x64]).toExcept =
      .ok [.ofFile "a" [1, 2], .ofFile "s/b" [3]] := by
    rw [found]
    rfl
  have stopped : (files.collect false [0x65]).toExcept = .error (.walk [0x65] .notFound) := by
    rw [missing]
    rfl
  have passed : (files.selfTest false [0x64]).2 = .ok ⟨2, 3, 105⟩ :=
    (selfTest_of_ok collected (Layout.fitsWords_iff.mpr (by decide))).1
  have possible : ∃ created, files.writeFile [0x64, slash, 0x6F] [] = .ok created := ⟨_, by cbv⟩
  obtain ⟨created, possible⟩ := possible
  have small : ∀ records, (files.collect false [0x64]).toExcept = .ok records →
      Layout.totalSize records < 2 ^ 63 := by
    intro records same
    obtain rfl := Except.ok.inj (collected.symm.trans same)
    decide
  have nothing : ∀ records, (files.collect false [0x65]).toExcept = .ok records →
      Layout.totalSize records < 2 ^ 63 := by
    intro records same
    cases stopped.symm.trans same
  obtain ⟨-, -, -, -, foretold⟩ := selfTest_foretells_pack files false [0x64] small
  obtain ⟨-, reported, -⟩ := selfTest_foretells_pack files false [0x65] nothing
  obtain ⟨result, bytes, records, read, -, decoded, sum⟩ :=
    foretold _ passed [0x64, slash, 0x6F] created possible
  exact ⟨passed, result, ⟨bytes, records, read, decoded, sum⟩,
    (reported _).mpr ⟨_, stopped, rfl⟩⟩

end FileSystem

end FlatArchive
