import FlatArchive.Proofs.Reader.Machine
import FlatArchive.Reader.Cursor
import Mathlib

/-!
# Programs never fault

A program may do with a buffer whatever it likes: open it several times, ask for
entries that are not there, keep copies of places and step them in any order, and
read the records in between.  Whoever wrote the buffer chose all numbers in it.
Still no step of the machine ends in a fault, and what the program learns is what
the reader and its cursors say (`run_eq_replies`).

The invariant that carries this is a type.  A `Visit` is what stands behind a
session of the machine: a reader, whose table lies inside the buffer, and cursors
of that reader, whose places lie inside the table.  A request takes a visit to a
visit, and on the machine it takes the session of the one to the session of the
other (`Machine.answer_ofVisit`); a step does so for all sessions of a program
(`Machine.step_ofVisits`), and a run is a sequence of steps (`Machine.run_ofVisits`).
-/

namespace FlatArchive

/-! ## Visits -/

theorem Cursor.reader_next (cursor : Cursor) : cursor.next.2.reader = cursor.reader := by
  unfold Cursor.next
  split <;> rfl

/-- A cursor of one reader. -/
def Reader.Place (reader : Reader) : Type :=
  { cursor : Cursor // cursor.reader = reader }

/-- The place after one step. -/
def Reader.Place.after {reader : Reader} (place : reader.Place) : reader.Place :=
  ⟨place.val.next.2, place.val.reader_next.trans place.property⟩

/-- Opens a buffer and remembers which. -/
def Reader.enter (buffer : Bytes) :
    Except ArchiveError { reader : Reader // reader.bytes = buffer } :=
  match opened : Reader.ofBytes buffer with
  | .error e => .error e
  | .ok reader => .ok ⟨reader, ((Reader.ofBytes_decides buffer).ok_iff reader).mp opened⟩

theorem Reader.map_val_enter (buffer : Bytes) :
    (Reader.enter buffer).map Subtype.val = Reader.ofBytes buffer := by
  unfold Reader.enter
  split <;> next opened => exact opened.symm

/-- What a program has of a buffer that it opened. -/
structure Visit (buffer : Bytes) where
  reader : Reader
  bytes_reader : reader.bytes = buffer
  places : List reader.Place := []

namespace Visit

variable {buffer : Bytes}

/-- What the reader and its cursors answer to a request. -/
def answer (visit : Visit buffer) : Machine.Request → Machine.Answer × Visit buffer
  | .header => (.header visit.reader.header visit.reader.header.dataStart, visit)
  | .count => (.count visit.reader.count, visit)
  | .indexEntry index => (.indexEntry (visit.reader.indexEntryAt? index), visit)
  | .indexEntries => (.indexEntries visit.reader.indexEntries, visit)
  | .entry index => (.entry (visit.reader.entryAt? index), visit)
  | .start =>
    (.started, { visit with places := visit.places ++ [⟨visit.reader.cursor, rfl⟩] })
  | .copy i =>
    match visit.places[i]? with
    | none => (.unknown, visit)
    | some place => (.started, { visit with places := visit.places ++ [place] })
  | .next i =>
    match visit.places[i]? with
    | none => (.unknown, visit)
    | some place =>
      (.entry place.val.next.1, { visit with places := visit.places.set i place.after })
  | .upper i =>
    match visit.places[i]? with
    | none => (.unknown, visit)
    | some place => (.upper place.val.sizeHint.2, visit)

end Visit

namespace Program

variable {buffer : Bytes}

/-- What comes of a step, without a machine. -/
def step (visits : List (Visit buffer)) :
    Machine.Step → Machine.Reply × List (Visit buffer)
  | .enter =>
    match Reader.enter buffer with
    | .error e => (.entered (.error e), visits)
    | .ok ⟨reader, opened⟩ =>
      (.entered (.ok reader.trailing),
        visits ++ [{ reader := reader, bytes_reader := opened }])
  | .decode => (.decoded (decode buffer), visits)
  | .ask i request =>
    match visits[i]? with
    | none => (.unknown, visits)
    | some visit =>
      (.answered (visit.answer request).1, visits.set i (visit.answer request).2)

/-- What a program learns, step by step, without a machine. -/
def replies (visits : List (Visit buffer)) : List Machine.Step → List Machine.Reply
  | [] => []
  | next :: rest => (step visits next).1 :: replies (step visits next).2 rest

end Program

/-! ## Requests on the machine -/

namespace Machine

variable {buffer : Bytes} {reader : Reader}

/-- Where the machine keeps a place. -/
def Walker.ofPlace (place : reader.Place) : Walker where
  place := place.val.place
  failed := place.val.failed

/-- The session of a visit. -/
def Session.ofVisit (visit : Visit buffer) : Session where
  archive := .ofReader visit.reader
  walkers := visit.places.map .ofPlace

/-- The checked loop over the table faults nowhere, and gives the rows of the reader. -/
theorem indexEntries_eq (small : reader.bytes.length < UInt64.size) :
    indexEntries (Opened.ofReader reader) = .ok reader.indexEntries := by
  have looked : indexEntryAt? (Opened.ofReader reader) =
      fun index => pure (reader.indexEntryAt? index) :=
    funext fun index => indexEntryAt?_eq small index
  have present : ∀ index ∈ List.range reader.count,
      reader.indexEntryAt? index = some (reader.indexEntryAt index) := by
    intro index inRange
    exact if_pos (List.mem_range.mp inRange)
  unfold indexEntries Reader.indexEntries
  rw [looked, List.mapM_pure, Opened.count_ofReader, List.map_congr_left present]
  show Except.ok (List.filterMap id _) = _
  rw [List.filterMap_map]
  exact congrArg Except.ok (congrFun List.filterMap_eq_map _)

/-- A walker steps as the cursor in its place does. -/
theorem next_ofPlace (small : reader.bytes.length < UInt64.size) (place : reader.Place) :
    Walker.next (Opened.ofReader reader) (Walker.ofPlace place) =
      .ok (place.val.next.1, Walker.ofPlace place.after) := by
  obtain ⟨⟨reader, index, failed, index_le⟩, rfl⟩ := place
  unfold Reader.Place.after Walker.ofPlace Cursor.next
  cases failed with
  | true => rfl
  | false =>
      rcases Nat.lt_or_ge index reader.count with inTable | done
      · simp only [inTable, and_self, dite_true]
        exact next_eq small index inTable
      · have outside : ¬ index < reader.count := Nat.not_lt.mpr done
        simp only [outside, and_false, dite_false]
        unfold Walker.next
        simp only [entryAt?_eq small, Reader.entryAt?, if_neg outside, bind, Except.bind]
        rfl

/-- No place lies behind the table, and so the number of entries left is a word. -/
theorem upper_ofPlace (place : reader.Place) :
    Walker.upper (Opened.ofReader reader) (Walker.ofPlace place) =
      .ok place.val.sizeHint.2 := by
  obtain ⟨⟨reader, index, failed, index_le⟩, rfl⟩ := place
  cases failed with
  | true => rfl
  | false => exact Checked.sub_eq_ok index_le

/-- **A request takes a visit to a visit**, and the machine follows. -/
theorem answer_ofVisit (small : buffer.length < UInt64.size) (visit : Visit buffer)
    (request : Request) :
    (Session.ofVisit visit).answer request =
      .ok ((visit.answer request).1, Session.ofVisit (visit.answer request).2) := by
  obtain ⟨reader, rfl, places⟩ := visit
  -- the places that the session keeps are those of the visit
  have kept : ∀ i, (places.map Walker.ofPlace)[i]? = places[i]?.map Walker.ofPlace :=
    fun i => List.getElem?_map
  unfold Session.answer Visit.answer Session.ofVisit
  cases request with
  | header => simp only [dataStart_eq, Opened.header_ofReader]
  | count => rfl
  | indexEntry index =>
      simp only [indexEntryAt?_eq small, bind, Except.bind]
      rfl
  | indexEntries =>
      simp only [indexEntries_eq small, bind, Except.bind]
      rfl
  | entry index =>
      simp only [entryAt?_eq small, bind, Except.bind]
      rfl
  | start =>
      simp only [List.map_append]
      rfl
  | copy i =>
      simp only [kept]
      cases places[i]? with
      | none => rfl
      | some place =>
          simp only [Option.map_some, List.map_append]
          rfl
  | next i =>
      simp only [kept]
      cases places[i]? with
      | none => rfl
      | some place =>
          simp only [Option.map_some, next_ofPlace small, bind, Except.bind, List.map_set]
          rfl
  | upper i =>
      simp only [kept]
      cases places[i]? with
      | none => rfl
      | some place =>
          simp only [Option.map_some, upper_ofPlace, bind, Except.bind]
          rfl

/-! ## Steps and runs on the machine -/

/-- **A step takes visits to visits**, and the machine follows. -/
theorem step_ofVisits (small : buffer.length < UInt64.size) (visits : List (Visit buffer))
    (next : Step) :
    step buffer (visits.map Session.ofVisit) next =
      .ok ((Program.step visits next).1,
        (Program.step visits next).2.map Session.ofVisit) := by
  unfold step Program.step
  cases next with
  | enter =>
      rw [open?_eq small, ← Reader.map_val_enter]
      cases Reader.enter buffer with
      | error e => rfl
      | ok opened =>
          simp only [List.map_append]
          rfl
  | decode =>
      simp only [decode_eq small, bind, Except.bind]
      rfl
  | ask i request =>
      simp only [List.getElem?_map]
      cases visits[i]? with
      | none => rfl
      | some visit =>
          simp only [Option.map_some, answer_ofVisit small, bind, Except.bind, List.map_set]
          rfl

/-- **A run of a program** takes visits to visits, and the machine follows. -/
theorem run_ofVisits (small : buffer.length < UInt64.size) :
    ∀ (program : List Step) (visits : List (Visit buffer)),
      ∃ sessions, run buffer (visits.map Session.ofVisit) program =
        .ok (Program.replies visits program, sessions) := by
  intro program
  induction program with
  | nil => exact fun visits => ⟨_, rfl⟩
  | cons next rest ih =>
      intro visits
      obtain ⟨sessions, ran⟩ := ih (Program.step visits next).2
      refine ⟨sessions, ?_⟩
      unfold run
      simp only [step_ofVisits small, bind, Except.bind, ran]
      rfl

end Machine

/-- **No program ends in a fault.**  Whatever the buffer says and in whatever order a
program opens it, asks, steps, copies and reads, every slice lies in its buffer, every
number is a word, and the replies are those of the reader and its cursors. -/
theorem run_eq_replies {buffer : Bytes} (small : buffer.length < 2 ^ 63)
    (program : List Machine.Step) :
    ∃ sessions, Machine.run buffer [] program =
      .ok (Program.replies ([] : List (Visit buffer)) program, sessions) := by
  have word : buffer.length < UInt64.size := lt_trans small (by decide)
  exact Machine.run_ofVisits word program []

/-- A buffer whose rows are as far out as a row can say: the first block would start and
end near the greatest word, and the second before the least. -/
def farRows : Bytes :=
  Header.toBytes { indexCount := 2, totalSize := 24 } ++
    (IndexEntry.toBytes {
      checksum := 0
      offset := Int64.maxValue
      length := Int64.maxValue
      pathLength := 0 } ++
    IndexEntry.toBytes {
      checksum := 0
      offset := Int64.minValue
      length := Int64.minValue
      pathLength := Int64.maxValue })

/-- Opened twice, read as a whole, asked for the entry with the greatest number, and gone
through beyond the bad entry and in a copy. -/
theorem run_farRows :
    farRows.length < 2 ^ 63 ∧
      ∃ sessions, Machine.run farRows []
          [.enter, .decode, .ask 0 (.entry 0xFFFFFFFFFFFFFFFF), .ask 0 .start,
            .ask 0 (.copy 0), .ask 0 (.next 0), .ask 0 (.next 0), .ask 0 (.upper 0),
            .ask 0 (.upper 1), .enter, .ask 1 (.upper 0)] =
        .ok ([.entered (.ok 72),
          .decoded (.error (.entryOutOfBounds 0 0x7FFFFFFFFFFFFFFF 0x7FFFFFFFFFFFFFFF 0)),
          .answered (.entry none), .answered .started, .answered .started,
          .answered (.entry (some
            (.error (.entryOutOfBounds 0 0x7FFFFFFFFFFFFFFF 0x7FFFFFFFFFFFFFFF 0)))),
          .answered (.entry none), .answered (.upper 0), .answered (.upper 2),
          .entered (.ok 72), .answered .unknown], sessions) := by
  have small : farRows.length < 2 ^ 63 := by decide
  refine ⟨small, ?_⟩
  refine (run_eq_replies small _).imp fun sessions ran => ran.trans ?_
  cbv

end FlatArchive
