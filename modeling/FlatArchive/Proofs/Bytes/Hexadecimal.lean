import FlatArchive.Bytes.Hexadecimal
import Mathlib

/-!
# Hexadecimal digits are read back

A digit is one of sixteen characters and stands for its place among them.  Written digits are
such characters (`mem_digits`), and they stand for the number that they were made from, as far
as there were digits enough for it (`value_digits`).
-/

namespace FlatArchive.Hexadecimal

/-- The digits in the order of what they stand for. -/
def alphabet : List Char := "0123456789abcdef".toList

/-- The number that digits stand for, the first being the most significant. -/
def value (text : List Char) : Nat :=
  text.foldl (fun n c => 16 * n + alphabet.idxOf c) 0

theorem digit_mem_and_idxOf : ∀ n < 16, digit n ∈ alphabet ∧ alphabet.idxOf (digit n) = n := by
  decide

/-- What is written for a number are digits. -/
theorem mem_digits {width n : Nat} {c : Char} (member : c ∈ digits width n) : c ∈ alphabet := by
  induction width generalizing n with
  | zero => simp [digits] at member
  | succ width ih =>
      rcases List.mem_append.mp member with front | last
      · exact ih front
      · rw [List.mem_singleton.mp last]
        exact (digit_mem_and_idxOf _ (Nat.mod_lt _ (by decide))).1

/-- **Digits are read back**, without what there was no digit for. -/
theorem value_digits (width n : Nat) : value (digits width n) = n % 16 ^ width := by
  induction width generalizing n with
  | zero => rw [Nat.pow_zero, Nat.mod_one]; rfl
  | succ width ih =>
      have last := (digit_mem_and_idxOf (n % 16) (Nat.mod_lt _ (by decide))).2
      calc value (digits (width + 1) n)
          = 16 * value (digits width (n / 16)) + alphabet.idxOf (digit (n % 16)) := by
            rw [value, digits, List.foldl_append, ← value, List.foldl_cons, List.foldl_nil]
        _ = n % 16 + 16 * (n / 16 % 16 ^ width) := by rw [ih, last, Nat.add_comm]
        _ = n % 16 ^ (width + 1) := by rw [Nat.pow_succ', Nat.mod_mul]

end FlatArchive.Hexadecimal
