import FlatArchive.Proofs.Digest.Polynomial
import Mathlib

/-!
# Two bytes exchanged

If two bytes of a block are exchanged, `d` places apart, the weight of the block changes by
their difference times `33 ^ d - 1`, moved up by what follows.  That factor is even, so it is
not plain that it cannot take the change to a multiple of 2 ^ 64.  But 33 is 1 more than
2 ^ 5, and so `33 ^ d - 1` has exactly the twos of `32 * d`
(`emultiplicity_pow_sub_one`).  The exchange goes unseen if and only if 2 ^ 59 divides the
difference times the distance (`checksum_exchange_eq_iff`).

A difference of bytes has at most seven twos, and a distance below 2 ^ 52 has at most 51.
Together these are 58, one too few, so in a block of up to 2 ^ 52 bytes every exchange is
seen (`checksum_exchange_ne`).  One byte more, and one of them is not
(`exists_checksum_exchange_eq`).
-/

namespace FlatArchive

/-! ## Exchanged bytes -/

namespace Bytes

/-- The bytes with those in places `i` and `j` exchanged. -/
def exchange (bytes : Bytes) (i j : Fin bytes.length) : Bytes :=
  (bytes.set i (bytes.get j)).set j (bytes.get i)

/-- A buffer from the window between two places. -/
theorem eq_append_of_lt (bytes : Bytes) (i j : Fin bytes.length) (before : i < j) :
    bytes = bytes.take i ++
      (bytes.get i :: (bytes.slice (i + 1) (j - (i + 1)) ++ [bytes.get j])) ++
        bytes.drop (j + 1) := by
  have first : bytes.drop i = bytes.get i :: bytes.drop (i + 1) :=
    List.drop_eq_getElem_cons i.isLt
  have last : bytes.drop j = bytes.get j :: bytes.drop (j + 1) :=
    List.drop_eq_getElem_cons j.isLt
  have behind : (bytes.drop (i + 1)).drop (j - (i + 1)) = bytes.drop j := by
    rw [List.drop_drop, Nat.add_sub_cancel' before]
  calc bytes = bytes.take i ++ bytes.drop i := (List.take_append_drop _ _).symm
    _ = bytes.take i ++ (bytes.get i ::
          (bytes.slice (i + 1) (j - (i + 1)) ++ bytes.get j :: bytes.drop (j + 1))) := by
        rw [first, slice, ← last, ← behind, List.take_append_drop]
    _ = _ := by simp

/-- The two ends of a window replaced. -/
theorem set_set_append (front middle back : Bytes) (x y x' y' : UInt8) :
    ((front ++ (x :: (middle ++ [y])) ++ back).set front.length x').set
        (front.length + (middle.length + 1)) y' =
      front ++ (x' :: (middle ++ [y'])) ++ back := by
  simp

/-- To exchange two bytes is to exchange the ends of the window between them. -/
theorem exchange_eq_append (bytes : Bytes) (i j : Fin bytes.length) (before : i < j) :
    ∃ front middle back : Bytes, middle.length + 1 = j - i ∧
      bytes = front ++ (bytes.get i :: (middle ++ [bytes.get j])) ++ back ∧
      bytes.exchange i j = front ++ (bytes.get j :: (middle ++ [bytes.get i])) ++ back := by
  have whole := bytes.eq_append_of_lt i j before
  have start : (bytes.take i).length = i := List.length_take_of_le (Nat.le_of_lt i.isLt)
  have between : (bytes.slice (i + 1) (j - (i + 1))).length = j - (i + 1) :=
    length_slice _ _ _ (by omega)
  refine ⟨_, _, _, by omega, whole, ?_⟩
  unfold exchange
  generalize bytes.get i = x, bytes.get j = y at whole
  generalize bytes.take i = front at whole start
  generalize bytes.slice (i + 1) (j - (i + 1)) = middle at whole between
  generalize bytes.drop (j + 1) = back at whole
  have last : (j : Nat) = front.length + (middle.length + 1) := by omega
  rw [last, ← start, whole]
  exact set_set_append front middle back x y y x

end Bytes

namespace Djb2

/-! ## The twos of `33 ^ d - 1` -/

/-- `33 ^ d - 1` has as many twos as `32 * d`. -/
theorem emultiplicity_pow_sub_one (d : Nat) :
    emultiplicity (2 : ℤ) (33 ^ d - 1) = emultiplicity 2 (2 ^ 5 * d : ℤ) := by
  have near : (4 : ℤ) ∣ 33 - 1 := by norm_num
  have odd : ¬ (2 : ℤ) ∣ 33 := by norm_num
  have lifted := Int.two_pow_sub_pow' d near odd
  rw [one_pow] at lifted
  rw [lifted, emultiplicity_mul Int.prime_two]
  norm_num

theorem dvd_mul_pow_sub_one_iff (m : ℤ) (d : Nat) :
    2 ^ 64 ∣ m * (33 ^ d - 1) ↔ 2 ^ 59 ∣ m * d := by
  have twos : emultiplicity 2 (m * (33 ^ d - 1)) = emultiplicity 2 (2 ^ 5 * (m * d)) := by
    rw [emultiplicity_mul Int.prime_two, emultiplicity_pow_sub_one,
      ← emultiplicity_mul Int.prime_two, mul_left_comm]
  have split : (2 : ℤ) ^ 64 = 2 ^ 5 * 2 ^ 59 := by norm_num
  rw [pow_dvd_iff_le_emultiplicity, twos, ← pow_dvd_iff_le_emultiplicity, split]
  exact mul_dvd_mul_iff_left (by norm_num)

/-- Numbers below `2 ^ (k + 1)` and `2 ^ (l + 1)` have at most `k + l` twos together. -/
theorem not_two_pow_dvd_mul {a b k l : Nat} (nonzeroA : a ≠ 0) (nonzeroB : b ≠ 0)
    (smallA : a < 2 ^ (k + 1)) (smallB : b < 2 ^ (l + 1)) : ¬ 2 ^ (k + l + 1) ∣ a * b := by
  intro divides
  have many := (padicValNat_dvd_iff_le (mul_ne_zero nonzeroA nonzeroB)).mp divides
  rw [padicValNat.mul nonzeroA nonzeroB] at many
  have fewA : padicValNat 2 a < k + 1 :=
    lt_of_le_of_lt (padicValNat_le_nat_log a) (Nat.log_lt_of_lt_pow nonzeroA smallA)
  have fewB : padicValNat 2 b < l + 1 :=
    lt_of_le_of_lt (padicValNat_le_nat_log b) (Nat.log_lt_of_lt_pow nonzeroB smallB)
  omega

/-! ## What an exchange changes -/

/-- The weight of some bytes between two others. -/
theorem weight_between (x y : UInt8) (middle : Bytes) :
    weight (x :: (middle ++ [y])) =
      x.toNat * 33 ^ (middle.length + 1) + (weight middle * 33 + y.toNat) := by
  rw [weight_cons, weight_append, List.length_append, List.length_singleton, pow_one,
    weight_cons y [], List.length_nil, pow_zero, weight_nil, mul_one, add_zero]

/-- Two bytes around `middle` can be exchanged unseen if and only if 2 ^ 59 divides their
difference times their distance. -/
theorem checksum_between_eq_iff (front middle back : Bytes) (x y : UInt8) :
    checksum (front ++ (y :: (middle ++ [x])) ++ back) =
        checksum (front ++ (x :: (middle ++ [y])) ++ back) ↔
      (2 ^ 59 : ℤ) ∣ (x.toNat - y.toNat) * (middle.length + 1 : Nat) := by
  have change : ((weight (x :: (middle ++ [y])) : ℤ) - weight (y :: (middle ++ [x]))) =
      (x.toNat - y.toNat) * (33 ^ (middle.length + 1) - 1) := by
    rw [weight_between, weight_between]
    push_cast
    ring
  rw [checksum_window_eq_iff front back (by simp), Nat.modEq_iff_dvd, change,
    ← dvd_mul_pow_sub_one_iff]
  norm_cast

/-- **What goes unseen of an exchange**: it changes the digest unless 2 ^ 59 divides the
difference of the two bytes times their distance. -/
theorem checksum_exchange_eq_iff (bytes : Bytes) (i j : Fin bytes.length) (before : i < j) :
    checksum (bytes.exchange i j) = checksum bytes ↔
      (2 ^ 59 : ℤ) ∣ ((bytes.get i).toNat - (bytes.get j).toNat) * (j - i : Nat) := by
  obtain ⟨front, middle, back, distance, whole, exchanged⟩ :=
    bytes.exchange_eq_append i j before
  rw [exchanged, ← distance]
  conv => lhs; rhs; rw [whole]
  exact checksum_between_eq_iff front middle back _ _

/-- **Every exchange is seen** in a block of up to 2 ^ 52 bytes. -/
theorem checksum_exchange_ne (bytes : Bytes) (short : bytes.length ≤ 2 ^ 52)
    (i j : Fin bytes.length) (before : i < j) (different : bytes.get i ≠ bytes.get j) :
    checksum (bytes.exchange i j) ≠ checksum bytes := by
  have differ : (bytes.get i).toNat ≠ (bytes.get j).toNat := by
    intro same
    exact different (UInt8.toNat_inj.mp same)
  have smallI := (bytes.get i).toNat_lt
  have smallJ := (bytes.get j).toNat_lt
  rw [Ne, checksum_exchange_eq_iff bytes i j before, ← Int.natAbs_dvd_natAbs, Int.natAbs_mul,
    Int.natAbs_natCast]
  -- seven twos in the difference, 51 in the distance
  exact not_two_pow_dvd_mul (k := 7) (l := 51) (by omega) (by omega) (by omega) (by omega)

/-- A byte with seven twos in front of zeros. -/
def spike (zeros : Nat) : Bytes :=
  0x80 :: List.replicate zeros 0x00

/-- At a distance of 32, which adds five twos to the seven. -/
theorem checksum_exchange_ne_spike :
    checksum ((spike 32).exchange ⟨0, by decide⟩ ⟨32, by decide⟩) ≠ checksum (spike 32) :=
  checksum_exchange_ne (spike 32) (by decide) _ _ (by decide) (by decide)

theorem length_spike (zeros : Nat) : (spike zeros).length = zeros + 1 := by
  rw [spike, List.length_cons, List.length_replicate]

theorem get_spike_succ {zeros n : Nat} (inside : n + 1 < (spike zeros).length) :
    (spike zeros).get ⟨n + 1, inside⟩ = 0x00 := by
  simp [spike]

/-- **The bound is exact**: in every greater length there is a block with an exchange that
is not seen.  Its bytes differ by 2 ^ 7 and are 2 ^ 52 places apart. -/
theorem exists_checksum_exchange_eq {length : Nat} (long : 2 ^ 52 < length) :
    ∃ (bytes : Bytes) (i j : Fin bytes.length), bytes.length = length ∧ i < j ∧
      bytes.get i ≠ bytes.get j ∧ checksum (bytes.exchange i j) = checksum bytes := by
  obtain ⟨n, last⟩ : ∃ n, 2 ^ 52 = n + 1 := ⟨2 ^ 52 - 1, by norm_num⟩
  have size : (spike (length - 1)).length = length := by
    rw [length_spike]
    omega
  have first : 0 < (spike (length - 1)).length := by omega
  have inside : n + 1 < (spike (length - 1)).length := by omega
  have leading : (spike (length - 1)).get ⟨0, first⟩ = 0x80 := rfl
  have zero := get_spike_succ inside
  have distance : n + 1 - 0 = 2 ^ 52 := last.symm
  refine ⟨spike (length - 1), ⟨0, first⟩, ⟨n + 1, inside⟩, size, Nat.succ_pos n, ?_, ?_⟩
  · rw [leading, zero]
    decide
  · rw [checksum_exchange_eq_iff _ _ _ (Nat.succ_pos n), leading, zero, distance]
    decide

end Djb2

end FlatArchive
