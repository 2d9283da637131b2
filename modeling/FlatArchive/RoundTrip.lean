import FlatArchive.IoError.Basic
import FlatArchive.Layout.Basic
import FlatArchive.Reader.Basic

/-!
# The round trip

Encode some records, decode what came out, and require the result to be the
records again.  Nothing is trusted here: the comparison looks at every field,
so a record whose size is not that of its content is reported as the difference
that it makes.
-/

namespace FlatArchive

/-- Why a round trip is not accepted. -/
inductive RoundTripError
  /-- Not as many records came out as went in. -/
  | countMismatch (expected actual : Nat)
  /-- The record in place `index`, with this path, came out different. -/
  | recordMismatch (index : Nat) (path : String)
  /-- What came out of encoding is not an archive. -/
  | archive (cause : ArchiveError)
  /-- The records could not be collected. -/
  | io (cause : IoError)
  deriving DecidableEq, Repr

/-- The words of the report. -/
def RoundTripError.message : RoundTripError → String
  | .countMismatch expected actual =>
    "number of files in the archive does not match the original: "
      ++ s!"expected {expected}, got {actual}"
  | .recordMismatch index path =>
    s!"file information mismatch at entry {index} ({path})"
  | .archive cause => s!"archive error: {cause.message}"
  | .io cause => s!"IO error: {cause.message}"

/-- What an accepted round trip moved. -/
structure RoundTripReport where
  files : Nat
  contentBytes : Nat
  archiveBytes : Nat
  deriving DecidableEq, Repr

namespace RoundTrip

/-- The first place, counted from `index`, where two lists of records differ,
with the path on the left. -/
def firstMismatch (index : Nat) :
    List FileRecord → List FileRecord → Option (Nat × String)
  | a :: as, b :: bs =>
    if a = b then firstMismatch (index + 1) as bs else some (index, a.path)
  | _, _ => none

/-- The bytes of content in some records. -/
def contentSize : (records : List FileRecord) → Nat
  | [] => 0
  | record :: rest => record.size.toNat + contentSize rest

/-- Encodes, decodes and compares. -/
def verify (records : List FileRecord) : Except RoundTripError RoundTripReport :=
  let archive := Layout.encode records
  match decode archive with
  | .error cause => .error (.archive cause)
  | .ok decoded =>
    if decoded.length ≠ records.length then
      .error (.countMismatch records.length decoded.length)
    else match firstMismatch 0 records decoded with
      | some (index, path) => .error (.recordMismatch index path)
      | none => .ok {
          files := records.length
          contentBytes := contentSize records
          archiveBytes := archive.length }

end RoundTrip

end FlatArchive
