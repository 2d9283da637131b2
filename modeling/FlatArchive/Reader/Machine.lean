import FlatArchive.Bytes.Checked
import FlatArchive.Reader.Basic

/-!
# The reader on a machine

The reader of this library computes with natural numbers, and its slices are
total.  A machine has neither: its numbers are words, a slice has to lie in its
buffer, and where that fails the program is stopped.  Here every operation of the
reader is written once more with the checks that a machine makes, in the order
in which it comes to them.  A program opens a buffer as often as it likes, reads
it as a whole, or asks one of the sessions that it opened; a session holds any
number of places in the table.

All fields of an archive are in the hands of whoever wrote it, and so are the
numbers in requests.  That no run ends in a fault is therefore a statement about
the checks that the reader makes itself, before it computes: `open?` for the
table, `dataRange?` for a block and its path.  Where a sum or a product of theirs
is no word they do not fault: such a number lies past the end of any buffer.
-/

namespace FlatArchive.Machine

/-- An archive that was opened: the buffer, its header and its entries. -/
structure Opened where
  bytes : Bytes
  header : Header
  count : Nat
  deriving DecidableEq

/-- Reads the header at the front of a buffer. -/
def parseHeader (buffer : Bytes) : Checked (Except ArchiveError Header) := do
  if buffer.length < headerSize then
    return .error (.truncated headerSize buffer.length)
  let magic ← Checked.slice buffer 0 8
  if magic ≠ Magic.archive.bytes then
    return .error (.invalidMagic magic)
  let indexCount ← Checked.slice buffer 8 8
  let totalSize ← Checked.slice buffer 16 8
  return .ok {
    indexCount := LittleEndian.toInt64 indexCount
    totalSize := LittleEndian.toInt64 totalSize }

/-- The sum of two words, or the greatest word if it is none. -/
def saturatingAdd (a b : Nat) : Nat :=
  min (a + b) maxWord

/-- The product of two words, or the greatest word if it is none. -/
def saturatingMul (a b : Nat) : Nat :=
  min (a * b) maxWord

/-- Where the blocks begin according to the header, for a report. -/
def dataStart (header : Header) : Nat :=
  saturatingAdd (saturatingMul entrySize (max header.indexCount 0).toInt.toNat) headerSize

/-- Whether a table of `count` entries ends inside a buffer of `length` bytes. -/
def tableFits (count length : Nat) : Bool :=
  match Checked.mul count entrySize >>= Checked.add headerSize with
  | .ok stop => decide (stop ≤ length)
  | .error _ => false

/-- Opens a buffer.  With it comes the number of bytes past the declared size. -/
def open? (bytes : Bytes) : Checked (Except ArchiveError (Opened × Nat)) := do
  match ← parseHeader bytes with
  | .error e => return .error e
  | .ok header =>
    if header.indexCount < 0 then
      return .error (.negativeIndexCount header.indexCount.toInt)
    let count := header.indexCount.toInt.toNat
    if !tableFits count bytes.length then
      return .error (.truncated (dataStart header) bytes.length)
    if header.totalSize < 0 ∨ bytes.length < header.totalSize.toInt.toNat then
      return .error (.sizeMismatch header.totalSize.toInt bytes.length)
    let trailing ← Checked.sub bytes.length header.totalSize.toInt.toNat
    return .ok (⟨bytes, header, count⟩, trailing)

/-- The entry in place `index`, if the table is that long. -/
def indexEntryAt? (archive : Opened) (index : Nat) : Checked (Option IndexEntry) := do
  if archive.count ≤ index then return none
  let start ← Checked.add headerSize (← Checked.mul index entrySize)
  let stop ← Checked.add start entrySize
  let row ← Checked.slice archive.bytes start (stop - start)
  return some (← IndexEntry.parse row)

/-- The index table. -/
def indexEntries (archive : Opened) : Checked (List IndexEntry) := do
  let rows ← (List.range archive.count).mapM (indexEntryAt? archive)
  return rows.filterMap id

/-- Where the block of an entry lies in an archive of `archiveLength` bytes.  A
negative field is no unsigned word. -/
def dataRange? (entry : IndexEntry) (archiveLength : Nat) : Option Span :=
  if entry.offset < 0 ∨ entry.length < 0 ∨ entry.pathLength < 0 then none
  else
    let offset := entry.offset.toInt.toNat
    let length := entry.length.toInt.toNat
    let pathLength := entry.pathLength.toInt.toNat
    if length < pathLength then none
    else match Checked.add offset length with
      | .error _ => none
      | .ok stop => if stop ≤ archiveLength then some ⟨offset, stop⟩ else none

/-- The file of an entry, or what is wrong with it. -/
def validate (archive : Opened) (index : Nat) (entry : IndexEntry) :
    Checked (Except ArchiveError Entry) := do
  match dataRange? entry archive.bytes.length with
  | none => return .error (.entryOutOfBounds index entry.offset.toInt entry.length.toInt
      entry.pathLength.toInt)
  | some span =>
    let block ← Checked.slice archive.bytes span.start (← Checked.sub span.stop span.start)
    let computed := Djb2.checksum block
    if computed ≠ entry.checksum then
      return .error (.checksumMismatch index entry.checksum computed)
    let (path, data) ← Checked.splitAt block entry.pathLength.toInt.toNat
    match Utf8.decode path with
    | .error cause => return .error (.invalidPath index cause)
    | .ok stored => return .ok {
        path := withoutLeadingSlash stored
        data := data
        checksum := entry.checksum
        offset := entry.offset.toInt.toNat }

/-- The file of the entry in place `index`, if the table is that long. -/
def entryAt? (archive : Opened) (index : Nat) :
    Checked (Option (Except ArchiveError Entry)) := do
  match ← indexEntryAt? archive index with
  | none => return none
  | some entry => return some (← validate archive index entry)

/-- A place in the table, and whether a bad entry was met. -/
structure Walker where
  place : Nat := 0
  failed : Bool := false
  deriving DecidableEq, Repr

/-- One step through the table. -/
def Walker.next (archive : Opened) (walker : Walker) :
    Checked (Option (Except ArchiveError Entry) × Walker) := do
  if walker.failed then return (none, walker)
  match ← entryAt? archive walker.place with
  | none => return (none, walker)
  | some result =>
    let place ← Checked.add walker.place 1
    return (some result, ⟨place, !result.isOk⟩)

/-- An upper bound on the results to come. -/
def Walker.upper (archive : Opened) (walker : Walker) : Checked Nat :=
  if walker.failed then .ok 0 else Checked.sub archive.count walker.place

/-! ## Sessions -/

/-- Something that a program can ask of an archive. -/
inductive Request
  | header
  | count
  | indexEntry (index : Nat)
  | indexEntries
  | entry (index : Nat)
  /-- A new place, before the first entry. -/
  | start
  /-- A copy of a place. -/
  | copy (walker : Nat)
  | next (walker : Nat)
  | upper (walker : Nat)
  deriving DecidableEq, Repr

/-- What a program learns. -/
inductive Answer
  | header (header : Header) (dataStart : Nat)
  | count (count : Nat)
  | indexEntry (entry : Option IndexEntry)
  | indexEntries (entries : List IndexEntry)
  | entry (result : Option (Except ArchiveError Entry))
  | started
  | upper (bound : Nat)
  /-- There is no such place. -/
  | unknown

/-- An archive and the places in it. -/
structure Session where
  archive : Opened
  walkers : List Walker := []

/-- Answers one request. -/
def Session.answer (session : Session) : Request → Checked (Answer × Session)
  | .header =>
    .ok (.header session.archive.header (dataStart session.archive.header), session)
  | .count => .ok (.count session.archive.count, session)
  | .indexEntry index => do
    return (.indexEntry (← indexEntryAt? session.archive index), session)
  | .indexEntries => do
    return (.indexEntries (← Machine.indexEntries session.archive), session)
  | .entry index => do
    return (.entry (← entryAt? session.archive index), session)
  | .start => .ok (.started, { session with walkers := session.walkers ++ [{}] })
  | .copy i =>
    match session.walkers[i]? with
    | none => .ok (.unknown, session)
    | some walker => .ok (.started, { session with walkers := session.walkers ++ [walker] })
  | .next i =>
    match session.walkers[i]? with
    | none => .ok (.unknown, session)
    | some walker => do
      let (result, walker) ← walker.next session.archive
      return (.entry result, { session with walkers := session.walkers.set i walker })
  | .upper i =>
    match session.walkers[i]? with
    | none => .ok (.unknown, session)
    | some walker => do
      return (.upper (← walker.upper session.archive), session)

/-- Goes through at most `steps` results and keeps the records, up to the first
bad entry. -/
def Walker.records (archive : Opened) (walker : Walker) :
    (steps : Nat) → Checked (Except ArchiveError (List FileRecord))
  | 0 => .ok (.ok [])
  | steps + 1 => do
    match ← walker.next archive with
    | (none, _) => return .ok []
    | (some (.error e), _) => return .error e
    | (some (.ok entry), walker) =>
      let rest ← walker.records archive steps
      return rest.map (entry.toRecord :: ·)

/-- The records in an archive, or what is wrong with it. -/
def decode (bytes : Bytes) : Checked (Except ArchiveError (List FileRecord)) := do
  match ← open? bytes with
  | .error e => return .error e
  | .ok (archive, _) => ({} : Walker).records archive (archive.count + 1)

/-! ## Programs -/

/-- What a program does next with its buffer. -/
inductive Step
  /-- Opens it as an archive, in a session of its own. -/
  | enter
  /-- Reads all records. -/
  | decode
  /-- Asks one of the sessions. -/
  | ask (session : Nat) (request : Request)
  deriving DecidableEq, Repr

/-- What comes of a step. -/
inductive Reply
  /-- The number of bytes past the declared size, or why there is no session. -/
  | entered (result : Except ArchiveError Nat)
  | decoded (result : Except ArchiveError (List FileRecord))
  | answered (answer : Answer)
  /-- There is no such session. -/
  | unknown

/-- Takes one step of a program. -/
def step (buffer : Bytes) (sessions : List Session) :
    Step → Checked (Reply × List Session)
  | .enter => do
    match ← open? buffer with
    | .error e => return (.entered (.error e), sessions)
    | .ok (archive, trailing) =>
      return (.entered (.ok trailing), sessions ++ [{ archive := archive }])
  | .decode => do
    return (.decoded (← decode buffer), sessions)
  | .ask i request =>
    match sessions[i]? with
    | none => .ok (.unknown, sessions)
    | some session => do
      let (answer, session) ← session.answer request
      return (.answered answer, sessions.set i session)

/-- Takes the steps of a program in order. -/
def run (buffer : Bytes) (sessions : List Session) :
    (program : List Step) → Checked (List Reply × List Session)
  | [] => .ok ([], sessions)
  | next :: rest => do
    let (reply, sessions) ← step buffer sessions next
    let (replies, sessions) ← run buffer sessions rest
    return (reply :: replies, sessions)

end FlatArchive.Machine
