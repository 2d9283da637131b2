import FlatArchive.Bytes.Basic

/-!
# Windows of a buffer

A reader sees a buffer through slices only, so what happens to an archive has to
be followed through slices.  Three questions come up again and again.

* What is a slice of a slice (`slice_slice`)?  A field of a row is one.
* What does a slice see of a buffer that was put together from the forms of some
  elements, one after the other (`slice_flatMap`)?  The table and the blocks of
  an archive are such buffers.
* What does a slice see of a buffer in which one byte was replaced
  (`slice_set_of_outside`, `slice_set_of_inside`)?
-/

namespace FlatArchive.Bytes

/-- A window that covers the first part of a buffer. -/
theorem slice_append_front (front back : Bytes) (length : Nat)
    (covers : front.length = length) : slice (front ++ back) 0 length = front := by
  rw [← covers]
  simp [slice]

/-- A window behind the first part of a buffer is a window of the second part. -/
theorem slice_append_of_le (front back : Bytes) (start length : Nat)
    (behind : front.length ≤ start) :
    slice (front ++ back) start length = back.slice (start - front.length) length := by
  rw [← slice_append_right front back (start - front.length) length,
    Nat.add_sub_cancel' behind]

/-- A byte of a window is a byte of the buffer. -/
theorem getElem?_slice (bytes : Bytes) (start length place : Nat)
    (inside : place < length) :
    (bytes.slice start length)[place]? = bytes[start + place]? := by
  rw [slice, List.getElem?_take_of_lt inside, List.getElem?_drop]

/-- Buffers with the same bytes in a window show the same there. -/
theorem slice_eq_of_getElem? {bytes other : Bytes} {start length : Nat}
    (same : ∀ place, start ≤ place → place < start + length → bytes[place]? = other[place]?) :
    bytes.slice start length = other.slice start length := by
  apply List.ext_getElem?
  intro i
  rcases Nat.lt_or_ge i length with inside | outside
  · rw [getElem?_slice _ _ _ _ inside, getElem?_slice _ _ _ _ inside]
    exact same (start + i) (by omega) (by omega)
  · rw [slice, slice, List.getElem?_take_eq_none outside, List.getElem?_take_eq_none outside]

/-- A window of a window is a window. -/
theorem slice_slice (bytes : Bytes) (start length start' length' : Nat)
    (inside : start' + length' ≤ length) :
    (bytes.slice start length).slice start' length' =
      bytes.slice (start + start') length' := by
  rw [slice, slice, slice, List.drop_take, List.take_take, List.drop_drop,
    Nat.min_eq_left (by omega)]

/-- Two windows, one behind the other, are one window. -/
theorem slice_append_slice (bytes : Bytes) (start length length' : Nat) :
    bytes.slice start length ++ bytes.slice (start + length) length' =
      bytes.slice start (length + length') := by
  rw [slice, slice, slice, List.take_add, List.drop_drop]

/-- In the joined forms of some elements, the form of one of them is found behind
the forms of the elements before it. -/
theorem slice_flatMap {α : Type} (form : α → Bytes) (elements : List α)
    (index : Nat) (inside : index < elements.length) :
    slice (elements.flatMap form) ((elements.take index).flatMap form).length
      (form elements[index]).length = form elements[index] := by
  have split : elements.flatMap form =
      (elements.take index).flatMap form ++
        (form elements[index] ++ (elements.drop (index + 1)).flatMap form) := by
    rw [← List.flatMap_cons, ← List.drop_eq_getElem_cons inside,
      ← List.flatMap_append, List.take_append_drop]
  rw [split]
  exact slice_append_exact _ _ _

/-- A window in which the forms of some elements are found, one behind the other, shows
the joined forms. -/
theorem slice_eq_flatMap {α : Type} (form : α → Bytes) (bytes : Bytes) :
    ∀ (elements : List α) (start : Nat),
      (∀ (index : Nat) (inside : index < elements.length),
        bytes.slice (start + ((elements.take index).flatMap form).length)
          (form elements[index]).length = form elements[index]) →
      bytes.slice start (elements.flatMap form).length = elements.flatMap form := by
  intro elements
  induction elements with
  | nil =>
      intro start _
      exact List.take_zero
  | cons element rest ih =>
      intro start found
      have first := found 0 (Nat.zero_lt_succ _)
      simp only [List.take_zero, List.flatMap_nil, List.length_nil, Nat.add_zero,
        List.getElem_cons_zero] at first
      have later := ih (start + (form element).length) fun index inside => by
        have behind := found (index + 1) (Nat.succ_lt_succ inside)
        simp only [List.take_succ_cons, List.flatMap_cons, List.length_append,
          List.getElem_cons_succ] at behind
        rw [Nat.add_assoc]
        exact behind
      rw [List.flatMap_cons, List.length_append, ← slice_append_slice, first, later]

/-! ## One byte replaced -/

/-- A window that does not contain the place of a replaced byte shows what it
showed before. -/
theorem slice_set_of_outside (bytes : Bytes) (place : Nat) (b : UInt8)
    (start length : Nat) (outside : place < start ∨ start + length ≤ place) :
    slice (bytes.set place b) start length = bytes.slice start length := by
  rcases outside with before | behind
  · rw [slice, slice, List.drop_set_of_lt before]
  · rw [slice, slice, List.drop_set, if_neg (by omega),
      List.take_set_of_le (by omega)]

/-- A window that contains the place of a replaced byte shows it replaced. -/
theorem slice_set_of_inside (bytes : Bytes) (place : Nat) (b : UInt8)
    (start length : Nat) (inside : start ≤ place) :
    slice (bytes.set place b) start length =
      (bytes.slice start length).set (place - start) b := by
  rw [slice, slice, List.drop_set, if_neg (by omega), List.take_set]

/-- A window in which a byte was replaced by another one is not what it was. -/
theorem set_slice_ne {bytes : Bytes} {start length place : Nat} {b : UInt8}
    (available : start + length ≤ bytes.length) (from_start : start ≤ place)
    (to_stop : place < start + length) (different : bytes[place]? ≠ some b) :
    (bytes.slice start length).set (place - start) b ≠ bytes.slice start length := by
  intro same
  have window := length_slice bytes start length available
  have replaced : ((bytes.slice start length).set (place - start) b)[place - start]? =
      some b :=
    List.getElem?_set_self (by omega)
  rw [same, getElem?_slice _ _ _ _ (by omega), Nat.add_sub_cancel' from_start] at replaced
  exact different replaced

end FlatArchive.Bytes
