import FlatArchive.Digest

/-!
# No byte cancels another one

A byte changes the state of the digest by `state * 33 + b`.  33 is odd, hence
invertible modulo 2 ^ 64 (`inverse`), and so a step loses nothing: from the new
state and the byte the old state can be computed (`step_left_injective`), from
the new state and the old one the byte (`step_right_injective`).

What carries the main result is the first half, run over many bytes: two states
that differ go on to differ whatever the same bytes are fed to both
(`update_injective`).  A single replaced byte makes the states differ, and the
bytes behind it cannot make up for it (`checksum_set_ne`).
-/

namespace FlatArchive.Djb2

/-- The inverse of 33 modulo 2 ^ 64. -/
def inverse : UInt64 := 0xF83E0F83E0F83E1

/-- 33 is odd, so it can be divided by. -/
theorem mul_inverse (state : UInt64) : state * 33 * inverse = state := by
  have one : (33 : UInt64) * inverse = 1 := by decide
  rw [UInt64.mul_assoc, one, UInt64.mul_one]

/-- States that one byte makes equal were equal. -/
theorem step_left_injective {a b : UInt64} {byte : UInt8}
    (same : step a byte = step b byte) : a = b := by
  have scaled : a * 33 = b * 33 := (UInt64.add_left_inj _).mp same
  rw [← mul_inverse a, scaled, mul_inverse b]

/-- Bytes that lead from one state to the same state are equal. -/
theorem step_right_injective {state : UInt64} {a b : UInt8}
    (same : step state a = step state b) : a = b := by
  have wide : a.toUInt64 = b.toUInt64 := (UInt64.add_right_inj _).mp same
  exact UInt8.toUInt64_inj.mp wide

/-- Hashers that the same bytes make equal were equal. -/
theorem update_injective :
    ∀ (bytes : Bytes) {a b : Djb2}, a.update bytes = b.update bytes → a = b := by
  intro bytes
  induction bytes with
  | nil => exact fun same => same
  | cons byte rest ih =>
      intro a b same
      have earlier : (⟨step a.state byte⟩ : Djb2) = ⟨step b.state byte⟩ := ih same
      have states : step a.state byte = step b.state byte := congrArg state earlier
      exact congrArg mk (step_left_injective states)

/-- **One replaced byte changes the digest**, wherever it stands and whatever
follows it. -/
theorem checksum_set_ne {bytes : Bytes} {place : Nat} {byte : UInt8}
    (inside : place < bytes.length) (different : bytes[place]? ≠ some byte) :
    checksum (bytes.set place byte) ≠ checksum bytes := by
  intro same
  rw [List.getElem?_eq_getElem inside] at different
  -- both buffers agree up to the byte, and behind it
  have before : bytes = bytes.take place ++ bytes[place] :: bytes.drop (place + 1) := by
    rw [← List.drop_eq_getElem_cons inside, List.take_append_drop]
  have after : bytes.set place byte =
      bytes.take place ++ byte :: bytes.drop (place + 1) :=
    List.set_eq_take_append_cons_drop.trans (if_pos inside)
  have whole : start.update (bytes.set place byte) = start.update bytes :=
    congrArg mk same
  rw [after] at whole
  conv at whole => rhs; rw [before]
  rw [update_append, update_append] at whole
  generalize start.update (bytes.take place) = common at whole
  have states : (⟨step common.state byte⟩ : Djb2) = ⟨step common.state bytes[place]⟩ :=
    update_injective _ whole
  have replaced : byte = bytes[place] := step_right_injective (congrArg state states)
  exact different (congrArg some replaced.symm)

end FlatArchive.Djb2
