import FlatArchive.Layout.Sink
import Mathlib

/-!
# An archive arrives whole or as a beginning of it

A medium may take as little as one byte at a time, may be full at any point, and may
then be silent or fail.  `Medium.Takes` says this much of a medium and no more, so
what is proved from it does not depend on where requests are cut.

The invariant of a transfer is `Medium.Delivered`: everything was taken, or the medium
holds as much as fits and the transfer failed.  Both are about what was handed over so
far as a whole, and so a request leads on to the next one inside a part
(`Medium.Takes.writeAll_delivered`) just as a part leads on to the next part
(`Medium.Takes.writeParts_delivered`).
-/

namespace FlatArchive

namespace Medium

/-- No more bytes than a medium with this capacity can hold. -/
def Fits (capacity : Option Nat) (bytes : Bytes) : Prop :=
  ∀ most, capacity = some most → bytes.length ≤ most

/-- A medium with this capacity that holds these bytes has room for one more. -/
def HasRoom (capacity : Option Nat) (bytes : Bytes) : Prop :=
  ∀ most, capacity = some most → bytes.length < most

variable {σ : Type} {state : σ → Prop} {held : σ → Bytes} {chunk capacity : Option Nat}

/-! ## What a transfer leaves -/

/-- What comes of handing over bytes to a medium, where `all` is what it held before and
these bytes. -/
inductive Delivered (state : σ → Prop) (held : σ → Bytes) (capacity : Option Nat)
    (all : Bytes) : σ × Except IoError Unit → Prop
  | whole {medium : σ} (ready : state medium) (fits : Fits capacity all)
      (held_eq : held medium = all) : Delivered state held capacity all (medium, .ok ())
  | cut {medium : σ} {e : IoError} {most : Nat} (bounded : capacity = some most)
      (exceeds : most < all.length) (held_eq : held medium = all.take most) :
      Delivered state held capacity all (medium, .error e)

namespace Delivered

/-- What was cut off stays cut off, whatever would have followed. -/
theorem append_of_error {medium : σ} {e : IoError} {all : Bytes}
    (delivered : Delivered state held capacity all (medium, .error e)) (more : Bytes) :
    Delivered state held capacity (all ++ more) (medium, .error e) := by
  cases delivered with
  | cut bounded exceeds held_eq =>
      refine .cut bounded ?_ ?_
      · rw [List.length_append]
        exact Nat.lt_add_right _ exceeds
      · rw [List.take_append_of_le_length (Nat.le_of_lt exceeds)]
        exact held_eq

/-- A medium that is full before all bytes were taken holds as much as fits. -/
theorem of_full {medium after : σ} {e : IoError} {bytes : Bytes}
    (fits : Fits capacity (held medium)) (full : ¬ HasRoom capacity (held medium))
    (left : bytes ≠ []) (same : held after = held medium) :
    Delivered state held capacity (held medium ++ bytes) (after, .error e) := by
  unfold HasRoom at full
  push Not at full
  obtain ⟨most, bounded, reached⟩ := full
  have exact : (held medium).length = most := Nat.le_antisymm (fits most bounded) reached
  refine .cut bounded ?_ ?_
  · rw [List.length_append, exact]
    exact Nat.lt_add_of_pos_right (List.length_pos_iff.mpr left)
  · rw [List.take_left' exact]
    exact same

/-- A transfer leaves the beginning that fits. -/
theorem held_eq {all : Bytes} {result : σ × Except IoError Unit}
    (delivered : Delivered state held capacity all result) :
    held result.1 = all.take (atMost all.length capacity) := by
  cases delivered with
  | whole _ fits held_eq =>
      cases capacity with
      | none => rw [held_eq, atMost, List.take_length]
      | some most =>
          rw [held_eq, atMost, Nat.min_eq_left (fits most rfl), List.take_length]
  | cut bounded exceeds held_eq =>
      rw [bounded, atMost, Nat.min_eq_right (Nat.le_of_lt exceeds)]
      exact held_eq

/-- A transfer succeeds exactly if everything fits. -/
theorem ok_iff {all : Bytes} {result : σ × Except IoError Unit}
    (delivered : Delivered state held capacity all result) :
    result.2 = .ok () ↔ Fits capacity all := by
  cases delivered with
  | whole _ fits _ => exact iff_of_true rfl fits
  | cut bounded exceeds _ =>
      refine iff_of_false (by simp) ?_
      intro fits
      exact Nat.not_le_of_lt exceeds (fits _ bounded)

end Delivered

/-! ## How a medium answers -/

variable [Medium σ]

/-- How a medium answers that is in one of some states.  While there is room it takes
at least one byte of an offer, and stays in these states; once it is full it takes
nothing or fails.  At most `chunk` bytes are taken at a time. -/
structure Takes (state : σ → Prop) (held : σ → Bytes) (chunk capacity : Option Nat) :
    Prop where
  offer_of_room : ∀ {medium : σ} {bytes : Bytes}, state medium → bytes ≠ [] →
    HasRoom capacity (held medium) →
      ∃ after n, offer medium bytes = (after, .ok n) ∧ state after ∧
        held after = held medium ++ bytes.take n ∧ Fits capacity (held after) ∧
        0 < n ∧ n ≤ bytes.length ∧ ∀ most, chunk = some most → n ≤ most
  offer_of_full : ∀ {medium : σ} {bytes : Bytes}, state medium → bytes ≠ [] →
    ¬ HasRoom capacity (held medium) →
      ∃ after, held after = held medium ∧
        (offer medium bytes = (after, .ok 0) ∨ ∃ e, offer medium bytes = (after, .error e))
  held_flush : ∀ {medium : σ}, state medium → held (flush medium).1 = held medium

namespace Takes

variable {medium after : σ} {bytes : Bytes}

/-- A medium of whose answer something was taken goes on. -/
theorem of_taken (takes : Takes state held chunk capacity) (ready : state medium)
    (left : bytes ≠ []) {n : Nat} (taken : offer medium bytes = (after, .ok (n + 1))) :
    state after ∧ held after = held medium ++ bytes.take (n + 1) ∧
      Fits capacity (held after) := by
  by_cases room : HasRoom capacity (held medium)
  · obtain ⟨after', m, answer, ready, held_eq, fits, -⟩ :=
      takes.offer_of_room ready left room
    obtain ⟨rfl, rfl⟩ : after = after' ∧ n + 1 = m := by
      simpa [taken] using answer
    exact ⟨ready, held_eq, fits⟩
  · obtain ⟨_, -, answer⟩ := takes.offer_of_full ready left room
    simp [taken] at answer

/-- A medium that takes nothing is full. -/
theorem of_refused (takes : Takes state held chunk capacity) (ready : state medium)
    (left : bytes ≠ [])
    (refused : offer medium bytes = (after, .ok 0) ∨
      ∃ e, offer medium bytes = (after, .error e)) :
    ¬ HasRoom capacity (held medium) ∧ held after = held medium := by
  have full : ¬ HasRoom capacity (held medium) := by
    intro room
    obtain ⟨_, n, taken, -, -, -, positive, -⟩ := takes.offer_of_room ready left room
    rcases refused with silent | ⟨e, failed⟩
    · simp only [silent, Prod.mk.injEq, Except.ok.injEq] at taken
      exact Nat.ne_of_lt positive taken.2
    · simp [failed] at taken
  obtain ⟨after', same, answer⟩ := takes.offer_of_full ready left full
  obtain rfl : after = after' := by
    rcases refused with silent | ⟨e, failed⟩
    · simpa [silent] using answer
    · simpa [failed] using answer
  exact ⟨full, same⟩

/-- **Requests are repeated until all is taken or nothing more fits.** -/
theorem writeAll_delivered (takes : Takes state held chunk capacity) (medium : σ)
    (bytes : Bytes) (ready : state medium) (fits : Fits capacity (held medium)) :
    Delivered state held capacity (held medium ++ bytes) (writeAll medium bytes) := by
  fun_induction writeAll medium bytes with
  | case1 medium bytes empty =>
      rw [List.isEmpty_iff.mp empty, List.append_nil]
      exact .whole ready fits rfl
  | case2 medium bytes nonempty after e failed =>
      have left : bytes ≠ [] := mt List.isEmpty_iff.mpr nonempty
      obtain ⟨full, same⟩ := takes.of_refused ready left (.inr ⟨e, failed⟩)
      exact .of_full fits full left same
  | case3 medium bytes nonempty after silent =>
      have left : bytes ≠ [] := mt List.isEmpty_iff.mpr nonempty
      obtain ⟨full, same⟩ := takes.of_refused ready left (.inl silent)
      exact .of_full fits full left same
  | case4 medium bytes nonempty after n taken ih =>
      have left : bytes ≠ [] := mt List.isEmpty_iff.mpr nonempty
      obtain ⟨ready, held_eq, fits⟩ := takes.of_taken ready left taken
      have rest := ih ready fits
      rw [held_eq, List.append_assoc, List.take_append_drop] at rest
      exact rest

/-- **Parts that are handed over one by one arrive like their concatenation.** -/
theorem writeParts_delivered (takes : Takes state held chunk capacity) (parts : List Bytes)
    (medium : σ) (ready : state medium) (fits : Fits capacity (held medium)) :
    Delivered state held capacity (held medium ++ parts.flatten)
      (writeParts medium parts) := by
  induction parts generalizing medium with
  | nil =>
      rw [List.flatten_nil, List.append_nil]
      exact .whole ready fits rfl
  | cons part rest ih =>
      have first := takes.writeAll_delivered medium part ready fits
      rw [List.flatten_cons, ← List.append_assoc]
      unfold writeParts
      split
      · next after written =>
          rw [written] at first
          cases first with
          | whole ready fits held_eq =>
              have following := ih after ready (held_eq ▸ fits)
              rwa [held_eq] at following
      · next after e failed =>
          rw [failed] at first
          exact first.append_of_error _

end Takes

end Medium

/-! ## Sinks -/

namespace Sink

/-- A sink is full exactly if its capacity leaves no room for one more byte. -/
theorem isFull_eq_false_iff (sink : Sink) :
    sink.isFull = false ↔ Medium.HasRoom sink.capacity sink.written := by
  unfold isFull Medium.HasRoom
  cases sink.capacity with
  | none => simp
  | some capacity => simp

/-- A sink takes what its bounds allow, as long as a request may hand over a byte. -/
theorem takes {chunk : Option Nat} (positive : ∀ most, chunk = some most → 0 < most)
    (capacity : Option Nat) :
    Medium.Takes (fun sink : Sink => sink.chunk = chunk ∧ sink.capacity = capacity)
      Sink.written chunk capacity where
  offer_of_room := by
    rintro sink bytes ⟨rfl, rfl⟩ left room
    set n := atMost (atMost bytes.length sink.chunk)
      (sink.capacity.map (· - sink.written.length)) with n_def
    have accepted : sink.accept bytes = .ok n := by
      simp only [accept, (isFull_eq_false_iff sink).mpr room, Bool.false_eq_true, if_false, n_def]
    have n_le : n ≤ atMost bytes.length sink.chunk := atMost_le _ _
    refine ⟨{ sink with written := sink.written ++ bytes.take n }, n, ?_, ⟨rfl, rfl⟩, rfl,
      ?_, ?_, n_le.trans (atMost_le _ _), ?_⟩
    · simp only [Medium.offer, accepted]
    · intro most bounded
      have n_fits : n ≤ most - sink.written.length := by
        refine atMost_le_bound _ ?_
        rw [bounded, Option.map_some]
      have := room most bounded
      simp only [List.length_append, List.length_take]
      omega
    · refine atMost_pos (atMost_pos (List.length_pos_iff.mpr left) positive) ?_
      intro most unfilled
      obtain ⟨capacity, bounded, rfl⟩ := Option.map_eq_some_iff.mp unfilled
      exact Nat.sub_pos_of_lt (room capacity bounded)
    · intro most bounded
      exact n_le.trans (atMost_le_bound _ bounded)
  offer_of_full := by
    rintro sink bytes ⟨rfl, rfl⟩ left full
    have isFull : sink.isFull = true := by
      rw [← Bool.not_eq_false, isFull_eq_false_iff]
      exact full
    cases what : sink.whenFull with
    | takesNothing =>
        refine ⟨{ sink with written := sink.written ++ bytes.take 0 }, by simp, .inl ?_⟩
        simp only [Medium.offer, accept, isFull, what, if_true]
    | fails text =>
        refine ⟨sink, rfl, .inr ⟨.medium .other text, ?_⟩⟩
        simp only [Medium.offer, accept, isFull, what, if_true]
  held_flush := fun _ => rfl

end Sink

/-! ## Archives -/

namespace Builder

variable {σ : Type} [Medium σ] {builder : Builder} {medium after : σ}

theorem writeTo_of_error {e : IoError}
    (cut : Medium.writeParts medium (Layout.parts builder.records) = (after, .error e)) :
    builder.writeTo medium = (after, .error e) := by
  rw [writeTo, cut]

/-- After the last part, only the flush can fail. -/
theorem writeTo_of_ok
    (whole : Medium.writeParts medium (Layout.parts builder.records) = (after, .ok ())) :
    builder.writeTo medium =
      ((Medium.flush after).1, (Medium.flush after).2.map fun _ => builder.totalSize) := by
  simp only [writeTo, whole]
  rcases Medium.flush after with ⟨last, _ | _⟩
  · rfl
  · rfl

end Builder

/-- **An archive arrives whole or as a beginning of it.**  Into a medium that holds
nothing yet, an archive is written up to the capacity, wherever requests are cut; this
succeeds exactly if the archive fits and the medium then keeps it; and the number that is
given is the size of the archive. -/
theorem writeTo_delivers {σ : Type} [Medium σ] {state : σ → Prop} {held : σ → Bytes}
    {chunk capacity : Option Nat} (takes : Medium.Takes state held chunk capacity)
    (builder : Builder) {medium : σ} (ready : state medium) (empty : held medium = []) :
    held (builder.writeTo medium).1 =
        builder.build.take (atMost builder.build.length capacity) ∧
      ((∃ size, (builder.writeTo medium).2 = .ok size) ↔
        Medium.Fits capacity builder.build ∧
          (Medium.flush
            (Medium.writeParts medium (Layout.parts builder.records)).1).2 = .ok ()) ∧
      ∀ size, (builder.writeTo medium).2 = .ok size →
        size = builder.build.length ∧ size = builder.totalSize := by
  have fits : Medium.Fits capacity (held medium) := by
    rw [empty]
    exact fun most _ => Nat.zero_le most
  have delivered : Medium.Delivered state held capacity builder.build
      (Medium.writeParts medium (Layout.parts builder.records)) := by
    have parts := takes.writeParts_delivered (Layout.parts builder.records) medium ready fits
    rwa [empty, List.nil_append, Layout.flatten_parts] at parts
  have length_build : builder.build.length = builder.totalSize :=
    Layout.length_encode builder.records
  cases written : Medium.writeParts medium (Layout.parts builder.records) with
  | mk after result =>
    rw [written] at delivered
    have held_eq := delivered.held_eq
    have ok_iff := delivered.ok_iff
    -- The flush comes only after all parts, and changes nothing of what the medium holds.
    cases delivered with
    | cut =>
        have unfit : ¬ Medium.Fits capacity builder.build := by
          simpa using ok_iff
        rw [Builder.writeTo_of_error written]
        exact ⟨held_eq, by simp [unfit], by simp⟩
    | whole ready fits =>
        rw [Builder.writeTo_of_ok written]
        refine ⟨(takes.held_flush ready).trans held_eq, ?_, ?_⟩
        · cases (Medium.flush after).2 with
          | error e => simp [Except.map]
          | ok _ => simp [Except.map, fits]
        · cases (Medium.flush after).2 with
          | error e => simp [Except.map]
          | ok _ =>
              rintro size ⟨rfl⟩
              exact ⟨length_build.symm, rfl⟩

/-- Five bytes of content: 71 bytes in all. -/
def greeting : Builder :=
  Builder.empty.addFile "hello" [0x68, 0x65, 0x6C, 0x6C, 0x6F]

/-- Three bytes a request, and one byte too few. -/
def narrow : Sink where
  chunk := some 3
  capacity := some 70

theorem writeTo_narrow :
    greeting.build.length = 71 ∧
      (greeting.writeTo narrow).1.written = greeting.build.take 70 ∧
      ¬ ∃ size, (greeting.writeTo narrow).2 = .ok size := by
  have length_build : greeting.build.length = 71 := by
    decide
  have takes := @Sink.takes (some 3) (by simp) (some 70)
  have ready : narrow.chunk = some 3 ∧ narrow.capacity = some 70 := ⟨rfl, rfl⟩
  obtain ⟨held_eq, ok_iff, -⟩ := writeTo_delivers takes greeting ready rfl
  rw [length_build] at held_eq
  refine ⟨length_build, held_eq, ?_⟩
  rw [ok_iff]
  rintro ⟨fits, -⟩
  have := fits 70 rfl
  omega

end FlatArchive
