import FlatArchive.IoError.Basic
import FlatArchive.Layout.Basic

/-!
# Writing an archive into a sink

An archive can be written into anything that takes bytes.  `Medium` says what that
has to be able to do: it is offered some bytes and takes the first few of them, as
many as it likes, and after the last byte it is asked to flush.  Both may fail.

`Sink` is a medium that is described by what it has taken so far and by how it
answers: at most `chunk` bytes per request, `capacity` bytes in all, and, once full,
either silence or an error in its own words.

`writeAll` repeats requests until everything is taken, so an archive arrives
whole or as a beginning of it, however the medium cuts it.  The parts of an
archive are handed over one by one (`Layout.parts`) and never put together;
`flatten_parts` says that together they are the archive.
-/

namespace FlatArchive

/-- Something that takes bytes.  A request that was only interrupted is made again
beneath this interface, so a failure is final. -/
class Medium (σ : Type) where
  /-- Offers bytes, and tells how many of them were taken. -/
  offer : σ → Bytes → σ × Except IoError Nat
  /-- Asks for what was taken to be kept. -/
  flush : σ → σ × Except IoError Unit

namespace Medium

variable {σ : Type} [Medium σ]

/-- Repeats requests until all bytes are taken or one request fails.  A request
that hands over nothing fails too. -/
def writeAll (medium : σ) (bytes : Bytes) : σ × Except IoError Unit :=
  if bytes.isEmpty then (medium, .ok ())
  else match offer medium bytes with
    | (medium, .error e) => (medium, .error e)
    | (medium, .ok 0) => (medium, .error .sinkFull)
    | (medium, .ok (n + 1)) => writeAll medium (bytes.drop (n + 1))
termination_by bytes.length
decreasing_by
  have h : bytes ≠ [] := by simp_all
  have := List.length_pos_iff.mpr h
  rw [List.length_drop]
  omega

/-- Writes parts one after the other, up to the first failure. -/
def writeParts (medium : σ) : List Bytes → σ × Except IoError Unit
  | [] => (medium, .ok ())
  | part :: rest =>
    match writeAll medium part with
    | (medium, .ok ()) => writeParts medium rest
    | (medium, .error e) => (medium, .error e)

end Medium

/-! ## Sinks -/

/-- What a full sink does with a request. -/
inductive WhenFull
  /-- It takes nothing. -/
  | takesNothing
  /-- It fails in its own words. -/
  | fails (text : String)
  deriving DecidableEq, Repr

/-- A medium in memory, with a bound on each request and one on all of them. -/
structure Sink where
  /-- The bytes taken so far. -/
  written : Bytes := []
  /-- The most bytes that one request can hand over. -/
  chunk : Option Nat := none
  /-- The most bytes that fit. -/
  capacity : Option Nat := none
  whenFull : WhenFull := .takesNothing
  flushFails : Bool := false
  deriving DecidableEq, Repr

/-- The lesser of a number and a bound, if there is a bound. -/
def atMost (n : Nat) : Option Nat → Nat
  | none => n
  | some bound => min n bound

theorem atMost_le (n : Nat) (bound : Option Nat) : atMost n bound ≤ n := by
  cases bound with
  | none => exact Nat.le_refl n
  | some bound => exact Nat.min_le_left n bound

theorem atMost_le_bound (n : Nat) {bound : Option Nat} {most : Nat}
    (bounded : bound = some most) : atMost n bound ≤ most := by
  subst bounded
  exact Nat.min_le_right n most

theorem atMost_pos {n : Nat} {bound : Option Nat} (positive : 0 < n)
    (allows : ∀ most, bound = some most → 0 < most) : 0 < atMost n bound := by
  cases bound with
  | none => exact positive
  | some most => exact Nat.lt_min.mpr ⟨positive, allows most rfl⟩

namespace Sink

/-- Whether no byte fits any more. -/
def isFull (sink : Sink) : Bool :=
  match sink.capacity with
  | none => false
  | some capacity => capacity ≤ sink.written.length

/-- How many of the offered bytes one request hands over. -/
def accept (sink : Sink) (offered : Bytes) : Except IoError Nat :=
  if sink.isFull then
    match sink.whenFull with
    | .takesNothing => .ok 0
    | .fails text => .error (.medium .other text)
  else
    .ok (atMost (atMost offered.length sink.chunk)
      (sink.capacity.map (· - sink.written.length)))

instance : Medium Sink where
  offer sink bytes :=
    match sink.accept bytes with
    | .error e => (sink, .error e)
    | .ok n => ({ sink with written := sink.written ++ bytes.take n }, .ok n)
  flush sink :=
    (sink, if sink.flushFails then .error (.medium .other "flush failed") else .ok ())

end Sink

/-! ## The parts of an archive -/

/-- What an archive of some records is written in. -/
def Layout.parts (records : List FileRecord) : List Bytes :=
  (header records).toBytes
    :: ((entries records).map IndexEntry.toBytes
      ++ records.flatMap fun record => [record.storedPathBytes, record.data])

/-- The parts that are written are the archive, cut after its header and each of its rows and
blocks. -/
theorem Layout.flatten_parts (records : List FileRecord) :
    (parts records).flatten = encode records := by
  have h : ∀ records : List FileRecord,
      (records.flatMap fun record => [record.storedPathBytes, record.data]).flatten
        = blocks records := by
    intro records
    induction records with
    | nil => rfl
    | cons record rest ih => simp_all [blocks, FileRecord.block]
  simp only [parts, encode, table, List.flatten_cons, List.flatten_append, h]
  rw [List.flatMap_def]

/-- Writes the archive into a medium and gives its size. -/
def Builder.writeTo {σ : Type} [Medium σ] (builder : Builder) (medium : σ) :
    σ × Except IoError Nat :=
  match Medium.writeParts medium (Layout.parts builder.records) with
  | (medium, .error e) => (medium, .error e)
  | (medium, .ok ()) =>
    match Medium.flush medium with
    | (medium, .error e) => (medium, .error e)
    | (medium, .ok ()) => (medium, .ok builder.totalSize)

end FlatArchive
