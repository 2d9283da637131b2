import FlatArchive.Bytes.Basic

/-!
# Operations that may be asked too much

A caller can ask for bytes past the end of a buffer, or for a sum or a difference
that is no word.  There is no sensible answer then, and none is made up: the
operation ends in a fault, which is not one of the errors that an archive can
have but a mistake of the caller.

Unsigned words are given as natural numbers, and an operation on them faults when
the result is `UInt64.size` or more, or less than nothing.
-/

namespace FlatArchive

/-- A mistake of the caller of an operation. -/
inductive Fault
  /-- The bytes asked for are not all there. -/
  | outOfRange
  /-- The result is no word. -/
  | overflow
  deriving DecidableEq, Repr

/-- A result, unless the operation was asked too much. -/
abbrev Checked := Except Fault

namespace Checked

/-- The `length` bytes that start at `start`, all of them. -/
def slice (bytes : Bytes) (start length : Nat) : Checked Bytes :=
  if start + length ≤ bytes.length then .ok (bytes.slice start length)
  else .error .outOfRange

/-- The sum of two words. -/
def add (a b : Nat) : Checked Nat :=
  if a + b < UInt64.size then .ok (a + b) else .error .overflow

/-- The product of two words. -/
def mul (a b : Nat) : Checked Nat :=
  if a * b < UInt64.size then .ok (a * b) else .error .overflow

/-- The difference of two words. -/
def sub (a b : Nat) : Checked Nat :=
  if b ≤ a then .ok (a - b) else .error .overflow

/-- The first `n` bytes and the others. -/
def splitAt (bytes : Bytes) (n : Nat) : Checked (Bytes × Bytes) :=
  if n ≤ bytes.length then .ok (bytes.take n, bytes.drop n) else .error .outOfRange

/-- The difference of two signed words. -/
def signedSub (a b : Int64) : Checked Int64 :=
  let difference := a.toInt - b.toInt
  if Int64.minValue.toInt ≤ difference ∧ difference ≤ Int64.maxValue.toInt then
    .ok (Int64.ofInt difference)
  else .error .overflow

/-- A slice inside the bytes is what it is without the check. -/
theorem slice_eq_ok {bytes : Bytes} {start length : Nat}
    (h : start + length ≤ bytes.length) :
    slice bytes start length = .ok (bytes.slice start length) :=
  if_pos h

theorem add_eq_ok {a b : Nat} (h : a + b < UInt64.size) : add a b = .ok (a + b) :=
  if_pos h

theorem mul_eq_ok {a b : Nat} (h : a * b < UInt64.size) : mul a b = .ok (a * b) :=
  if_pos h

theorem sub_eq_ok {a b : Nat} (h : b ≤ a) : sub a b = .ok (a - b) :=
  if_pos h

theorem splitAt_eq_ok {bytes : Bytes} {n : Nat} (h : n ≤ bytes.length) :
    splitAt bytes n = .ok (bytes.take n, bytes.drop n) :=
  if_pos h

/-- Two signed words have a difference exactly if it is the value of one. -/
theorem signedSub_eq_ok_iff {a b c : Int64} :
    signedSub a b = .ok c ↔ c.toInt = a.toInt - b.toInt := by
  rw [signedSub, Int64.toInt_minValue, Int64.toInt_maxValue]
  split
  · next word =>
    have value : (Int64.ofInt (a.toInt - b.toInt)).toInt = a.toInt - b.toInt :=
      Int64.toInt_ofInt_of_le word.1 (by omega)
    rw [Except.ok.injEq, ← Int64.toInt_inj, value, eq_comm]
  · next outside =>
    have lower := c.le_toInt
    have upper := c.toInt_lt
    simp only [reduceCtorEq, false_iff]
    omega

end Checked

end FlatArchive
