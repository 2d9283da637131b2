import FlatArchive.Proofs.Reader.Programs
import Mathlib

/-!
# A place gives what its history leaves

All places in the table of an archive go through one sequence, the results of the reader: the
judgements on the entries in order, cut just behind the first report (`Reader.results`).
How far a place has come is one number, the steps that it has taken, and a copy counts the
steps of its original as its own.  This number alone decides what the next step gives and
what is left, whatever is done with other places in between.

The list of what a cursor has still to give carries this: a step takes off its head
(`Cursor.head?_toList`, `Cursor.tail_toList`), so after `m` steps the first `m` results are
missing (`Reader.toList_cursorAfter`).  A program keeps many places, and the invariant of its
requests is that each place is where its count of steps leads (`Visit.Follows`).
-/

namespace FlatArchive

/-! ## Up to the first report -/

section

variable {ε α : Type}

/-- The results up to the first report, and that one. -/
def throughError : List (Except ε α) → List (Except ε α)
  | [] => []
  | .ok a :: rest => .ok a :: throughError rest
  | .error e :: _ => [.error e]

theorem length_throughError_le (results : List (Except ε α)) :
    (throughError results).length ≤ results.length := by
  fun_induction throughError with
  | case1 => exact Nat.le_refl 0
  | case2 a rest ih => exact Nat.succ_le_succ ih
  | case3 e rest => exact Nat.succ_le_succ (Nat.zero_le _)

/-- What lies behind the first report does not matter to the values of all results. -/
theorem mapM_throughError (results : List (Except ε α)) :
    (throughError results).mapM id = results.mapM id := by
  fun_induction throughError with
  | case1 => rfl
  | case2 a rest ih => rw [List.mapM_cons, List.mapM_cons, ih]
  | case3 e rest => rfl

end

/-- What a reader finds, entry by entry, up to the first bad one. -/
def Reader.results (reader : Reader) : List (Except ArchiveError Entry) :=
  throughError ((List.range reader.count).map reader.entryAt)

/-! ## One cursor -/

namespace Cursor

variable {cursor : Cursor}

/-- A cursor that has failed or is past the last entry gives nothing, and stays as it is. -/
theorem next_of_rest (rest : cursor.failed = true ∨ cursor.reader.count ≤ cursor.place) :
    cursor.next = (none, cursor) := by
  unfold next
  rw [dif_neg]
  rintro ⟨going, inTable⟩
  rcases rest with failed | done
  · rw [going] at failed
    cases failed
  · exact Nat.not_lt_of_le done inTable

/-- Any other cursor gives the entry that it is at, and goes on to the next one. -/
theorem next_of_going (going : cursor.failed = false)
    (inTable : cursor.place < cursor.reader.count) :
    cursor.next = (some (cursor.reader.entryAt cursor.place), {
      cursor with
      place := cursor.place + 1
      failed := !(cursor.reader.entryAt cursor.place).isOk
      place_le := inTable }) :=
  dif_pos ⟨going, inTable⟩

theorem toList_of_next_none {after : Cursor} (ended : cursor.next = (none, after)) :
    cursor.toList = [] := by
  rw [toList]
  split <;> next stepped => cases stepped.symm.trans ended <;> rfl

theorem toList_of_next_some {after : Cursor} {result : Except ArchiveError Entry}
    (stepped : cursor.next = (some result, after)) : cursor.toList = result :: after.toList := by
  rw [toList]
  split <;> next stepped' => cases stepped'.symm.trans stepped <;> rfl

/-- A step takes off the head of what a cursor has still to give. -/
theorem head?_toList (cursor : Cursor) : cursor.toList.head? = cursor.next.1 := by
  cases stepped : cursor.next with
  | mk result after =>
      cases result with
      | none => rw [toList_of_next_none stepped, List.head?_nil]
      | some result => rw [toList_of_next_some stepped, List.head?_cons]

/-- A step takes the first result away and changes no other. -/
theorem tail_toList (cursor : Cursor) : cursor.toList.tail = cursor.next.2.toList := by
  by_cases going : cursor.failed = false ∧ cursor.place < cursor.reader.count
  · have stepped := next_of_going going.1 going.2
    rw [toList_of_next_some stepped, stepped, List.tail_cons]
  · have ended : cursor.next = (none, cursor) := dif_neg going
    rw [toList_of_next_none ended, ended, toList_of_next_none ended, List.tail_nil]

/-- What a cursor has still to give: nothing after a report, and else the results of the
entries from its place on. -/
theorem toList_eq (cursor : Cursor) :
    cursor.toList =
      if cursor.failed then []
      else throughError ((List.range' cursor.place (cursor.reader.count - cursor.place)).map
        cursor.reader.entryAt) := by
  -- by the number of entries left
  generalize left : cursor.reader.count - cursor.place = entries
  induction entries generalizing cursor with
  | zero =>
      have ended : cursor.next = (none, cursor) := next_of_rest (Or.inr (by omega))
      rw [toList_of_next_none ended, List.range'_zero, List.map_nil, throughError, ite_self]
  | succ entries ih =>
      cases failed : cursor.failed with
      | true =>
          rw [toList_of_next_none (next_of_rest (Or.inl failed)), if_pos rfl]
      | false =>
          rw [toList_of_next_some (next_of_going failed (by omega)), if_neg Bool.false_ne_true,
            List.range'_succ, List.map_cons, ih _ (by simp only; omega)]
          cases cursor.reader.entryAt cursor.place <;> rfl

/-- A cursor has no more to give than it says. -/
theorem length_toList_le (cursor : Cursor) : cursor.toList.length ≤ cursor.sizeHint.2 := by
  rw [toList_eq, sizeHint]
  cases cursor.failed with
  | true => exact Nat.le_refl 0
  | false =>
      refine Nat.le_trans (length_throughError_le _) (Nat.le_of_eq ?_)
      rw [List.length_map, List.length_range']
      rfl

theorem failed_next_of_failed (failed : cursor.failed = true) :
    cursor.next.2.failed = true := by
  rw [next_of_rest (Or.inl failed)]
  exact failed

theorem failed_next_of_error {e : ArchiveError} (report : cursor.next.1 = some (.error e)) :
    cursor.next.2.failed = true := by
  by_cases going : cursor.failed = false ∧ cursor.place < cursor.reader.count
  · have stepped := next_of_going going.1 going.2
    rw [stepped] at report ⊢
    simp only [Option.some.inj report]
    rfl
  · have ended : cursor.next = (none, cursor) := dif_neg going
    rw [ended] at report
    cases report

/-- Steps a cursor up to the first report, and keeps the files. -/
def collect (cursor : Cursor) : Except ArchiveError (List Entry) :=
  match _h : cursor.next with
  | (none, _) => .ok []
  | (some (.error e), _) => .error e
  | (some (.ok entry), after) => after.collect.map (entry :: ·)
termination_by cursor.reader.count - cursor.place
decreasing_by
  obtain ⟨inTable, place, reader⟩ := place_of_next _h
  rw [place, reader]
  omega

/-- To collect is to take the files from what a cursor has still to give. -/
theorem collect_eq (cursor : Cursor) : cursor.collect = cursor.toList.mapM id := by
  fun_induction collect with
  | case1 cursor after ended =>
      rw [toList_of_next_none ended]
      rfl
  | case2 cursor e after stepped =>
      rw [toList_of_next_some stepped]
      rfl
  | case3 cursor entry after stepped ih =>
      rw [toList_of_next_some stepped, List.mapM_cons, ih]
      cases after.toList.mapM id <;> rfl

end Cursor

namespace Reader

/-- The cursor that has taken some steps from the first entry on. -/
def cursorAfter (reader : Reader) : (steps : Nat) → Cursor
  | 0 => reader.cursor
  | steps + 1 => (reader.cursorAfter steps).next.2

variable {reader : Reader}

/-- From the first entry on a cursor gives what the reader finds. -/
theorem toList_cursor (reader : Reader) : reader.cursor.toList = reader.results := by
  rw [Cursor.toList_eq, results, List.range_eq_range']
  rfl

/-- Each step takes off one result. -/
theorem toList_cursorAfter (reader : Reader) (steps : Nat) :
    (reader.cursorAfter steps).toList = reader.results.drop steps := by
  induction steps with
  | zero => exact toList_cursor reader
  | succ steps ih => rw [cursorAfter, ← Cursor.tail_toList, ih, List.tail_drop]

/-- **The next step gives the next result.** -/
theorem next_cursorAfter (reader : Reader) (steps : Nat) :
    (reader.cursorAfter steps).next.1 = reader.results[steps]? := by
  rw [← Cursor.head?_toList, toList_cursorAfter, List.head?_drop]

/-- Whichever earlier step gave the report, the cursor has failed. -/
theorem failed_cursorAfter {steps k : Nat} {e : ArchiveError} (earlier : k < steps)
    (report : reader.results[k]? = some (.error e)) :
    (reader.cursorAfter steps).failed = true := by
  induction steps with
  | zero => exact absurd earlier (Nat.not_lt_zero k)
  | succ steps ih =>
      rcases Nat.lt_succ_iff_lt_or_eq.mp earlier with before | rfl
      · exact Cursor.failed_next_of_failed (ih before)
      · exact Cursor.failed_next_of_error ((next_cursorAfter reader k).trans report)

/-- The number bounds what is left after some steps, and it is nothing if one of them gave a
report. -/
structure Bounds (reader : Reader) (steps upper : Nat) : Prop where
  left_le : reader.results.length - steps ≤ upper
  eq_zero : ∀ k < steps, ∀ e, reader.results[k]? = some (.error e) → upper = 0

theorem bounds_cursorAfter (reader : Reader) (steps : Nat) :
    reader.Bounds steps (reader.cursorAfter steps).sizeHint.2 where
  left_le := by
    rw [← List.length_drop, ← toList_cursorAfter]
    exact Cursor.length_toList_le _
  eq_zero := by
    intro k earlier e report
    rw [Cursor.sizeHint, failed_cursorAfter earlier report]
    rfl

/-- To collect all files is to read the entries one after the other. -/
theorem collect_cursor (reader : Reader) : reader.cursor.collect = reader.entries := by
  rw [Cursor.collect_eq, toList_cursor, results, mapM_throughError, List.mapM_map]
  rfl

/-! ## Many places -/

/-- What a request learns if all that is known of each place is the number of steps it has
taken, and these numbers after the request.  A new place has taken none, a copy those of
its original. -/
inductive Tells (reader : Reader) :
    List Nat → Machine.Request → Machine.Answer → List Nat → Prop
  | header (taken : List Nat) :
      Tells reader taken .header (.header reader.header reader.header.dataStart) taken
  | count (taken : List Nat) : Tells reader taken .count (.count reader.count) taken
  | indexEntry (taken : List Nat) (index : Nat) :
      Tells reader taken (.indexEntry index) (.indexEntry (reader.indexEntryAt? index)) taken
  | indexEntries (taken : List Nat) :
      Tells reader taken .indexEntries (.indexEntries reader.indexEntries) taken
  | entry (taken : List Nat) (index : Nat) :
      Tells reader taken (.entry index) (.entry (reader.entryAt? index)) taken
  | start (taken : List Nat) : Tells reader taken .start .started (taken ++ [0])
  | copy {taken : List Nat} {i steps : Nat} (place : taken[i]? = some steps) :
      Tells reader taken (.copy i) .started (taken ++ [steps])
  | next {taken : List Nat} {i steps : Nat} (place : taken[i]? = some steps) :
      Tells reader taken (.next i) (.entry reader.results[steps]?) (taken.set i (steps + 1))
  | upper {taken : List Nat} {i steps upper : Nat} (place : taken[i]? = some steps)
      (bounds : reader.Bounds steps upper) :
      Tells reader taken (.upper i) (.upper upper) taken
  | copyNowhere {taken : List Nat} {i : Nat} (nowhere : taken[i]? = none) :
      Tells reader taken (.copy i) .unknown taken
  | nextNowhere {taken : List Nat} {i : Nat} (nowhere : taken[i]? = none) :
      Tells reader taken (.next i) .unknown taken
  | upperNowhere {taken : List Nat} {i : Nat} (nowhere : taken[i]? = none) :
      Tells reader taken (.upper i) .unknown taken

/-- What requests learn one after the other. -/
inductive History (reader : Reader) :
    List Nat → List Machine.Request → List Machine.Answer → Prop
  | nil (taken : List Nat) : History reader taken [] []
  | cons {taken after : List Nat} {request : Machine.Request} {answer : Machine.Answer}
      {requests : List Machine.Request} {answers : List Machine.Answer}
      (first : reader.Tells taken request answer after)
      (rest : History reader after requests answers) :
      History reader taken (request :: requests) (answer :: answers)

end Reader

/-- The cursor in a place. -/
def Reader.Place.cursor {reader : Reader} (place : reader.Place) : Cursor :=
  place.val

namespace Visit

variable {buffer : Bytes} {reader : Reader} {visit : Visit buffer} {taken : List Nat}

/-- Each place of the visit is where its number of steps leads. -/
structure Follows (visit : Visit buffer) (reader : Reader) (taken : List Nat) : Prop where
  reader_eq : visit.reader = reader
  places_eq : visit.places.map Reader.Place.cursor = taken.map reader.cursorAfter

namespace Follows

theorem getElem?_eq (follows : visit.Follows reader taken) (i : Nat) :
    visit.places[i]?.map Reader.Place.cursor = taken[i]?.map reader.cursorAfter := by
  rw [← List.getElem?_map, follows.places_eq, List.getElem?_map]

theorem nowhere (follows : visit.Follows reader taken) {i : Nat}
    (missing : visit.places[i]? = none) : taken[i]? = none := by
  have same := follows.getElem?_eq i
  rw [missing, Option.map_none] at same
  exact Option.map_eq_none_iff.mp same.symm

/-- Where there is a place, there is the number of its steps. -/
theorem exists_steps (follows : visit.Follows reader taken) {i : Nat}
    {place : visit.reader.Place} (found : visit.places[i]? = some place) :
    ∃ steps, taken[i]? = some steps ∧ place.cursor = reader.cursorAfter steps := by
  have same := follows.getElem?_eq i
  rw [found, Option.map_some] at same
  obtain ⟨steps, counted, led⟩ := Option.map_eq_some_iff.mp same.symm
  exact ⟨steps, counted, led.symm⟩

/-- **What one request learns**, and that each place is still where its steps lead. -/
theorem answer (follows : visit.Follows reader taken) (request : Machine.Request) :
    ∃ after, reader.Tells taken request (visit.answer request).1 after ∧
      (visit.answer request).2.Follows reader after := by
  obtain ⟨rfl, places⟩ := id follows
  cases request with
  | header => exact ⟨taken, .header taken, follows⟩
  | count => exact ⟨taken, .count taken, follows⟩
  | indexEntry index => exact ⟨taken, .indexEntry taken index, follows⟩
  | indexEntries => exact ⟨taken, .indexEntries taken, follows⟩
  | entry index => exact ⟨taken, .entry taken index, follows⟩
  | start =>
      refine ⟨taken ++ [0], .start taken, rfl, ?_⟩
      simp only [Visit.answer, List.map_append, places]
      rfl
  | copy i =>
      unfold Visit.answer
      cases found : visit.places[i]? with
      | none =>
          simp only [found]
          exact ⟨taken, .copyNowhere (follows.nowhere found), follows⟩
      | some place =>
          obtain ⟨steps, counted, led⟩ := follows.exists_steps found
          simp only [found]
          refine ⟨taken ++ [steps], .copy counted, rfl, ?_⟩
          simp only [List.map_append, places, List.map_cons, led, List.map_nil]
  | next i =>
      unfold Visit.answer
      cases found : visit.places[i]? with
      | none =>
          simp only [found]
          exact ⟨taken, .nextNowhere (follows.nowhere found), follows⟩
      | some place =>
          obtain ⟨steps, counted, led⟩ := follows.exists_steps found
          simp only [found]
          refine ⟨taken.set i (steps + 1), ?_, rfl, ?_⟩
          · rw [show place.val = visit.reader.cursorAfter steps from led, Reader.next_cursorAfter]
            exact .next counted
          · have moved : place.after.cursor = visit.reader.cursorAfter (steps + 1) :=
              congrArg (fun cursor => cursor.next.2) led
            simp only [List.map_set, places, moved]
  | upper i =>
      unfold Visit.answer
      cases found : visit.places[i]? with
      | none =>
          simp only [found]
          exact ⟨taken, .upperNowhere (follows.nowhere found), follows⟩
      | some place =>
          obtain ⟨steps, counted, led⟩ := follows.exists_steps found
          simp only [found]
          refine ⟨taken, ?_, follows⟩
          rw [show place.val = visit.reader.cursorAfter steps from led]
          exact .upper counted (Reader.bounds_cursorAfter _ steps)

/-- **What many requests learn**, by induction on them. -/
theorem replies (follows : visit.Follows reader taken) (requests : List Machine.Request) :
    ∃ answers, Program.replies [visit] (requests.map (.ask 0)) =
        answers.map .answered ∧ reader.History taken requests answers := by
  induction requests generalizing visit taken with
  | nil => exact ⟨[], rfl, .nil taken⟩
  | cons request rest ih =>
      obtain ⟨after, first, still⟩ := follows.answer request
      obtain ⟨answers, later, told⟩ := ih still
      refine ⟨(visit.answer request).1 :: answers, ?_, .cons first told⟩
      rw [List.map_cons, List.map_cons, ← later]
      rfl

end Follows

end Visit

theorem Reader.enter_eq_ok {buffer : Bytes} {reader : Reader}
    (opened : Reader.ofBytes buffer = .ok reader) :
    ∃ same, Reader.enter buffer = .ok ⟨reader, same⟩ := by
  have entered := Reader.map_val_enter buffer
  rw [opened] at entered
  cases result : Reader.enter buffer with
  | error e =>
      rw [result] at entered
      cases entered
  | ok found =>
      rw [result] at entered
      obtain rfl := Except.ok.inj entered
      exact ⟨found.property, rfl⟩

/-- **A place gives what its history leaves.**  However a program steps, bounds and copies
its places in an archive, the next step of a place that has taken `m` gives the result
number `m`, or nothing from the last result on; the bound on what is left is right, and
nothing after a report; and no count falls below zero.  The files that a new cursor
collects are those of all records, or the report is the same. -/
theorem run_tells_history {buffer : Bytes} {reader : Reader}
    (small : buffer.length < 2 ^ 63) (opened : Reader.ofBytes buffer = .ok reader) :
    (∀ requests : List Machine.Request, ∃ answers sessions,
      Machine.run buffer [] (.enter :: requests.map (.ask 0)) =
          .ok (.entered (.ok reader.trailing) :: answers.map .answered, sessions) ∧
        reader.History [] requests answers) ∧
    (∀ steps : Nat, (reader.cursorAfter steps).next.1 = reader.results[steps]? ∧
      ∃ upper, (reader.cursorAfter steps).sizeHint = (0, upper) ∧
        reader.Bounds steps upper) ∧
    reader.cursor.collect.map (List.map Entry.toRecord) = decode buffer := by
  refine ⟨?_, ?_, ?_⟩
  · intro requests
    obtain ⟨same, entered⟩ := Reader.enter_eq_ok opened
    have before : Visit.Follows (⟨reader, same, []⟩ : Visit buffer) reader [] := ⟨rfl, rfl⟩
    obtain ⟨answers, replied, told⟩ := before.replies requests
    have word : buffer.length < UInt64.size := lt_trans small (by decide)
    obtain ⟨sessions, ran⟩ := Machine.run_ofVisits word (.enter :: requests.map (.ask 0)) []
    refine ⟨answers, sessions, ran.trans ?_, told⟩
    rw [← replied]
    simp only [Program.replies, Program.step, entered]
    rfl
  · intro steps
    refine ⟨reader.next_cursorAfter steps, _, ?_, reader.bounds_cursorAfter steps⟩
    unfold Cursor.sizeHint
    split <;> rfl
  · rw [reader.collect_cursor, decode, opened]

/-- Two rows whose block is the magic number at the front.  The digest in the first one is
wrong. -/
def spoiledFirst : Bytes :=
  Header.toBytes { indexCount := 2, totalSize := 0 } ++
    (IndexEntry.toBytes { checksum := 0, offset := 0, length := 8, pathLength := 0 } ++
    IndexEntry.toBytes {
      checksum := Djb2.checksum Magic.archive.bytes
      offset := 0
      length := 8
      pathLength := 0 })

/-- Two copies of a place, from before and from behind its first step. -/
def twoCopies : List Machine.Request :=
  [.start, .copy 0, .next 0, .copy 0, .upper 1, .upper 2, .next 1, .next 2, .entry 1]

/-- The early copy meets the bad row too, and the late one gives nothing.  The second entry
is still there if asked for. -/
def toldOfTwoCopies : List Machine.Answer :=
  [.started, .started,
    .entry (some (.error (.checksumMismatch 0 0 (Djb2.checksum Magic.archive.bytes)))),
    .started, .upper 2, .upper 0,
    .entry (some (.error (.checksumMismatch 0 0 (Djb2.checksum Magic.archive.bytes)))),
    .entry none,
    .entry (some (.ok {
      path := ""
      data := Magic.archive.bytes
      checksum := Djb2.checksum Magic.archive.bytes
      offset := 0 }))]

/-- What the machine computes on the spoiled archive is one of the histories. -/
theorem run_tells_history_spoiledFirst :
    ∃ reader answers sessions, Reader.ofBytes spoiledFirst = .ok reader ∧
      Machine.run spoiledFirst [] (.enter :: twoCopies.map (.ask 0)) =
        .ok (.entered (.ok 96) :: answers.map .answered, sessions) ∧
      reader.History [] twoCopies answers ∧
      answers.map Machine.Reply.answered = toldOfTwoCopies.map .answered ∧
      reader.cursor.collect.map (List.map Entry.toRecord) =
        .error (.checksumMismatch 0 0 (Djb2.checksum Magic.archive.bytes)) := by
  obtain ⟨reader, opened⟩ := (Reader.exists_ofBytes_iff_opens spoiledFirst).mpr
    (by constructor <;> decide)
  obtain ⟨histories, -, collected⟩ := run_tells_history (by decide) opened
  obtain ⟨answers, sessions, ran, told⟩ := histories twoCopies
  have computed : (Machine.run spoiledFirst [] (.enter :: twoCopies.map (.ask 0))).map
      Prod.fst = .ok (.entered (.ok 96) :: toldOfTwoCopies.map .answered) := by
    cbv
  rw [ran] at computed
  obtain ⟨trailing, replies⟩ := List.cons.inj (Except.ok.inj computed)
  rw [trailing] at ran
  refine ⟨reader, answers, sessions, opened, ran, told, replies, ?_⟩
  rw [collected]
  cbv

end FlatArchive
