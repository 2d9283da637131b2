import FlatArchive.Layout.Checked
import FlatArchive.Proofs.FileSystem.WellFormed
import FlatArchive.Transfer.Pack
import Mathlib

/-!
# What packing writes

An archive file has no bound on its size, so it takes all parts of an archive, and packing
comes to collecting first and then writing the archive of what was collected with one
request (`pack_eq_ok_iff`).
-/

namespace FlatArchive

/-! ## A sink without bounds -/

namespace Sink

open Medium

variable {sink : Sink}

/-- A sink without bounds takes all at once. -/
theorem writeAll_unbounded (chunk : sink.chunk = none) (capacity : sink.capacity = none)
    (bytes : Bytes) :
    writeAll sink bytes = ({ sink with written := sink.written ++ bytes }, .ok ()) := by
  have accepted : sink.accept bytes = .ok bytes.length := by
    simp [accept, isFull, chunk, capacity, atMost]
  rw [writeAll]
  cases bytes with
  | nil => simp
  | cons byte rest =>
      have offered : offer sink (byte :: rest) =
          ({ sink with written := sink.written ++ byte :: rest }, .ok (rest.length + 1)) := by
        simp only [offer, accepted, List.length_cons]
        simp
      rw [offered]
      simp only [List.isEmpty_cons, Bool.false_eq_true, if_false, List.drop_succ_cons,
        List.drop_length]
      rw [writeAll]
      rfl

theorem writeParts_unbounded (chunk : sink.chunk = none) (capacity : sink.capacity = none)
    (parts : List Bytes) :
    writeParts sink parts =
      ({ sink with written := sink.written ++ parts.flatten }, .ok ()) := by
  induction parts generalizing sink with
  | nil => simp [writeParts]
  | cons part rest ih =>
      have others := @ih { sink with written := sink.written ++ part } chunk capacity
      rw [List.append_assoc] at others
      rw [writeParts, writeAll_unbounded chunk capacity]
      exact others

end Sink

/-- An empty sink without bounds takes the archive as it is. -/
theorem Builder.writeTo_unbounded (builder : Builder) :
    builder.writeTo ({} : Sink) = ({ written := builder.build }, .ok builder.totalSize) := by
  rw [writeTo, Sink.writeParts_unbounded rfl rfl, Layout.flatten_parts]
  rfl

/-! ## Packing -/

namespace FileSystem

variable {files after : FileSystem} {follow : Bool} {directory archive : PathText}
  {summary : PackSummary}

/-- **Packing is collecting and then writing the archive.** -/
theorem pack_eq_ok_iff :
    (files.pack follow directory archive).result = .ok summary ∧
        (files.pack follow directory archive).files = after ↔
      (files.collect follow directory).failure = none ∧
        files.writeFile archive (Layout.encode (files.collect follow directory).records) =
          .ok after ∧
        summary = ⟨(files.collect follow directory).records.length,
          Layout.totalSize (files.collect follow directory).records⟩ := by
  unfold pack
  simp only [Builder.writeTo_unbounded]
  cases ended : (files.collect follow directory).failure with
  | some e => simp [Findings.toExcept, ended]
  | none =>
      simp only [Findings.toExcept, ended, Builder.build, Builder.length, Builder.totalSize,
        true_and]
      cases written : files.writeFile archive
          (Layout.encode (files.collect follow directory).records) with
      | error e => simp
      | ok packed => simp [eq_comm, and_comm]

/-- What cannot be collected is not packed, and no archive file is made. -/
theorem pack_of_failure {e : IoError}
    (stopped : (files.collect follow directory).failure = some e) (archive : PathText) :
    (files.pack follow directory archive).files = files ∧
      (files.pack follow directory archive).result = .error e := by
  unfold pack
  simp only [Findings.toExcept, stopped, and_self]

/-- Where no file can be made, packing changes nothing. -/
theorem pack_of_refused {e : FileError} (ended : (files.collect follow directory).failure = none)
    (refused : files.writeFile archive [] = .error e) :
    (files.pack follow directory archive).files = files ∧
      (files.pack follow directory archive).result = .error (.file e) := by
  unfold pack
  simp only [Findings.toExcept, ended, Builder.writeTo_unbounded,
    (writeFile_error_iff _ _).mp refused, and_self]

/-- **Packing changes one file or none.**  If the files cannot be collected, or no file can be
made at the path of the archive, the tree is what it was; otherwise the file that this path leads
to holds the archive of what was collected, even if it was itself collected. -/
theorem pack_changes (files : FileSystem) (follow : Bool) (directory archive : PathText) :
    let found := files.collect follow directory
    let packed := files.pack follow directory archive
    (∀ e, found.failure = some e → packed.files = files ∧ packed.result = .error e) ∧
      (found.failure = none →
        (∀ e, files.writeFile archive [] = .error e →
          packed.files = files ∧ packed.result = .error (.file e)) ∧
        ∀ created, files.writeFile archive [] = .ok created →
          (∃ target, files.resolve .create archive = .ok target ∧
            packed.files.label? = Function.update files.label? target.place
              (some (.file (Layout.encode found.records)))) ∧
          packed.files.read archive = .ok (Layout.encode found.records) ∧
          packed.result =
            .ok ⟨found.records.length, (Layout.encode found.records).length⟩ ∧
          (Layout.totalSize found.records < 2 ^ 63 →
            Layout.encode? found.records = .ok (Layout.encode found.records))) := by
  intro found packed
  refine ⟨fun e stopped => pack_of_failure stopped archive, fun ended =>
    ⟨fun e refused => pack_of_refused ended refused, fun created possible => ?_⟩⟩
  -- Making the file and writing to it are two requests, which come to one write of the archive.
  obtain ⟨after, written⟩ := writeFile_other possible (Layout.encode found.records)
  obtain ⟨result, same⟩ := pack_eq_ok_iff.mpr ⟨ended, written, rfl⟩
  obtain ⟨target, resolved, -, update⟩ := writeFile_update written
  have files_eq : packed.files = after := same
  rw [files_eq]
  refine ⟨⟨target, resolved, update⟩, read_of_writeFile written, ?_, fun small => ?_⟩
  · rw [Layout.length_encode]
    exact result
  · refine Layout.encode?_eq (Nat.lt_trans small ?_)
    decide

/-- The archive is written over the only file that goes into it. -/
theorem pack_changes_ownFile :
    let files : FileSystem := ⟨[([0x64], .dir [([0x66], .file [1])])]⟩
    let packed := files.pack false [0x64] [0x64, slash, 0x66]
    let bytes := Layout.encode [.ofFile "f" [1]]
    packed.files.label? = Function.update files.label? [[0x64], [0x66]] (some (.file bytes)) ∧
      packed.files.read [0x64, slash, 0x66] = .ok bytes ∧ packed.result = .ok ⟨1, 63⟩ := by
  intro files packed bytes
  have collected : files.collect false [0x64] = { records := [.ofFile "f" [1]] } := by cbv
  have possible : ∃ created, files.writeFile [0x64, slash, 0x66] [] = .ok created := ⟨_, by cbv⟩
  have resolved : files.resolve .create [0x64, slash, 0x66] = .ok (.found [[0x64], [0x66]]) := by
    cbv
  obtain ⟨created, possible⟩ := possible
  obtain ⟨⟨target, leads, update⟩, read, result, -⟩ :=
    ((pack_changes files false [0x64] [0x64, slash, 0x66]).2 (by rw [collected])).2 created possible
  obtain rfl := Except.ok.inj (resolved.symm.trans leads)
  rw [collected] at update read result
  exact ⟨update, read, result⟩

/-- Packing leaves a tree well formed. -/
theorem pack_wellFormed (wellFormed : files.WellFormed) (follow : Bool)
    (directory archive : PathText) :
    (files.pack follow directory archive).files.WellFormed := by
  unfold pack
  simp only [Builder.writeTo_unbounded]
  split
  · exact wellFormed
  · split
    · exact wellFormed
    · next written _ => exact writeFile_wellFormed wellFormed written
    · next written _ => exact writeFile_wellFormed wellFormed written

end FileSystem

end FlatArchive
