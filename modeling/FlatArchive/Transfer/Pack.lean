import FlatArchive.Layout.Sink
import FlatArchive.Reader.Basic
import FlatArchive.RoundTrip
import FlatArchive.Transfer.Collect
import FlatArchive.Transfer.Extract

/-!
# Packing and unpacking

The two directions between a directory and an archive file, and the check that
one undoes the other.  Each does all its reading before its first change: an
archive file is not touched before everything that goes into it was collected,
and nothing is extracted from an archive with a bad entry in it.
-/

namespace FlatArchive

/-- What was packed: the files, and the bytes of the archive. -/
structure PackSummary where
  files : Nat
  bytes : Nat
  deriving DecidableEq, Repr

namespace FileSystem

/-- Collects a directory and writes it to an archive file. -/
def pack (files : FileSystem) (follow : Bool) (directory archive : PathText) :
    Outcome PackSummary :=
  let findings := files.collect follow directory
  match findings.toExcept with
  | .error e => ⟨files, findings.log, .error e⟩
  | .ok records =>
    let builder : Builder := ⟨records⟩
    let (sink, written) := builder.writeTo ({} : Sink)
    match files.writeFile archive sink.written, written with
    | .error e, _ => ⟨files, findings.log, .error (.file e)⟩
    | .ok files, .error e => ⟨files, findings.log, .error e⟩
    | .ok files, .ok bytes =>
      let summary := Log.summary <|
        s!"archived {builder.length} file(s) from {Utf8.lossy directory} "
          ++ s!"into {Utf8.lossy archive} ({bytes} bytes)"
      ⟨files, findings.log ++ [summary], .ok ⟨builder.length, bytes⟩⟩

/-- Reads an archive file and extracts it below a directory; the result is the
number of files. -/
def unpack (files : FileSystem) (archive directory : PathText) : Outcome Nat :=
  match files.read archive with
  | .error e => ⟨files, [], .error (.file e)⟩
  | .ok bytes =>
    match Reader.ofBytes bytes with
    | .error e => ⟨files, [], .error (IoError.ofArchive e)⟩
    | .ok reader =>
      match reader.entries with
      | .error e => ⟨files, reader.notices, .error (IoError.ofArchive e)⟩
      | .ok entries =>
        match files.createDirAll directory with
        | (files, .error e) => ⟨files, reader.notices, .error (.file e)⟩
        | (files, .ok ()) =>
          let after := files.extractEach directory Entry.path Entry.data entries
          let log := reader.notices ++ after.log
          match after.result with
          | .error e => ⟨after.files, log, .error e⟩
          | .ok () =>
            let summary := Log.summary <|
              s!"extracted {entries.length} file(s) from {Utf8.lossy archive} "
                ++ s!"into {Utf8.lossy directory}"
            ⟨after.files, log ++ [summary], .ok entries.length⟩

/-- Takes a directory through the round trip in memory.  No file is changed, so
there is a log and a result. -/
def selfTest (files : FileSystem) (follow : Bool) (directory : PathText) :
    List Log.Line × Except RoundTripError RoundTripReport :=
  let findings := files.collect follow directory
  match findings.toExcept with
  | .error e => (findings.log, .error (.io e))
  | .ok records =>
    let built : Log.Line := {
      level := .debug
      origin := .container
      message := s!"built archive: {records.length} entries, "
        ++ s!"{Layout.totalSize records} bytes" }
    match RoundTrip.verify records with
    | .error e => (findings.log ++ [built], .error e)
    | .ok report =>
      let verified : Log.Line := {
        level := .info
        origin := .roundTrip
        message := s!"round trip of {Utf8.lossy directory} verified: "
          ++ s!"{report.files} file(s), {report.contentBytes} content bytes, "
          ++ s!"{report.archiveBytes} archive bytes" }
      (findings.log ++ [built, verified], .ok report)

end FileSystem

end FlatArchive
