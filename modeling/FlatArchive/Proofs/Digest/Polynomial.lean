import FlatArchive.Proofs.Digest.Injective
import Mathlib

/-!
# The digest as a polynomial

Feeding bytes to a digest evaluates a polynomial at 33: the state before them is the
leading coefficient, and the bytes are the others, in order.  The machine reduces modulo
2 ^ 64 at each byte, and the polynomial is reduced once (`update_modEq`).

Bytes thus enter a digest through their weight alone.  Two rows of bytes of one length lead
from one state to the same state if and only if their weights agree modulo 2 ^ 64
(`update_eq_iff`), and since 33 is invertible, what is fed before and after them changes
nothing about that (`checksum_window_eq_iff`).  This is exactly what goes unseen when a part
of a block is replaced.

How the bytes are cut into pieces does not matter (`foldl_update`): the writer of a block
feeds a path and some content, its reader the whole block.
-/

namespace FlatArchive.Djb2

/-! ## Weights -/

/-- The value at 33 of the polynomial whose coefficients are the bytes, the first one
leading. -/
def weight (bytes : Bytes) : Nat :=
  ∑ k : Fin bytes.length, (bytes.get k).toNat * 33 ^ (bytes.length - 1 - k)

@[simp] theorem weight_nil : weight [] = 0 := rfl

theorem weight_cons (byte : UInt8) (rest : Bytes) :
    weight (byte :: rest) = byte.toNat * 33 ^ rest.length + weight rest := by
  have exponent : ∀ k, rest.length + 1 - 1 - (k + 1) = rest.length - 1 - k := by omega
  show ∑ k : Fin (rest.length + 1),
    ((byte :: rest).get k).toNat * 33 ^ (rest.length + 1 - 1 - k) = _
  rw [Fin.sum_univ_succ]
  simp only [List.get_cons_zero, List.get_cons_succ', Fin.val_zero, Fin.val_succ, exponent]
  rfl

/-- The weight of bytes grows by as many powers as there are bytes behind them. -/
theorem weight_append (front back : Bytes) :
    weight (front ++ back) = weight front * 33 ^ back.length + weight back := by
  induction front with
  | nil => simp
  | cons byte rest ih =>
      rw [List.cons_append, weight_cons, weight_cons, ih, List.length_append]
      ring

/-! ## States -/

/-- Words are equal if they stand for the same number modulo 2 ^ 64. -/
theorem word_eq_iff {a b : UInt64} : a = b ↔ a.toNat ≡ b.toNat [MOD 2 ^ 64] := by
  constructor
  · rintro rfl
    exact Nat.ModEq.refl _
  · intro same
    exact UInt64.toNat_inj.mp (same.eq_of_lt_of_lt a.toNat_lt b.toNat_lt)

/-- One byte multiplies the state by 33 and adds itself, up to whole words. -/
theorem step_modEq (state : UInt64) (byte : UInt8) :
    (step state byte).toNat ≡ state.toNat * 33 + byte.toNat [MOD 2 ^ 64] := by
  rw [step, UInt64.toNat_add, UInt64.toNat_mul, UInt8.toNat_toUInt64]
  calc (state.toNat * 33 % 2 ^ 64 + byte.toNat) % 2 ^ 64
      ≡ state.toNat * 33 % 2 ^ 64 + byte.toNat [MOD 2 ^ 64] := Nat.mod_modEq _ _
    _ ≡ state.toNat * 33 + byte.toNat [MOD 2 ^ 64] := (Nat.mod_modEq _ _).add_right _

/-- The state after some bytes is that before them, moved up, and their weight. -/
theorem update_modEq (bytes : Bytes) :
    ∀ hasher : Djb2, (hasher.update bytes).state.toNat ≡
      hasher.state.toNat * 33 ^ bytes.length + weight bytes [MOD 2 ^ 64] := by
  induction bytes with
  | nil =>
      intro hasher
      simp [Nat.ModEq]
  | cons byte rest ih =>
      intro hasher
      calc (hasher.update (byte :: rest)).state.toNat
          ≡ (step hasher.state byte).toNat * 33 ^ rest.length + weight rest [MOD 2 ^ 64] :=
            ih ⟨step hasher.state byte⟩
        _ ≡ (hasher.state.toNat * 33 + byte.toNat) * 33 ^ rest.length + weight rest
              [MOD 2 ^ 64] :=
            ((step_modEq _ _).mul_right _).add_right _
        _ = hasher.state.toNat * 33 ^ (rest.length + 1) +
              (byte.toNat * 33 ^ rest.length + weight rest) := by ring
        _ = hasher.state.toNat * 33 ^ (byte :: rest).length + weight (byte :: rest) := by
            rw [List.length_cons, weight_cons]

/-- Digesting bytes adds their weight to the state, moved up by their number. -/
theorem toNat_digest_update (hasher : Djb2) (bytes : Bytes) :
    (hasher.update bytes).digest.toNat =
      (hasher.digest.toNat * 33 ^ bytes.length + weight bytes) % 2 ^ 64 :=
  (Nat.mod_eq_of_lt (hasher.update bytes).state.toNat_lt).symm.trans (update_modEq bytes hasher)

/-- From one state, bytes of the same weight lead to the same state, and no others do. -/
theorem update_eq_iff (hasher : Djb2) {a b : Bytes} (length : a.length = b.length) :
    hasher.update a = hasher.update b ↔ weight a ≡ weight b [MOD 2 ^ 64] := by
  have afterA := update_modEq a hasher
  have afterB := update_modEq b hasher
  rw [length] at afterA
  constructor
  · intro same
    rw [same] at afterA
    exact Nat.ModEq.add_left_cancel' _ (afterA.symm.trans afterB)
  · intro weights
    have states : (hasher.update a).state = (hasher.update b).state :=
      word_eq_iff.mpr (afterA.trans ((weights.add_left _).trans afterB.symm))
    exact congrArg mk states

/-! ## Pieces and windows -/

/-- Bytes may be fed in pieces, some of which may be empty. -/
theorem foldl_update (pieces : List Bytes) :
    ∀ hasher : Djb2, pieces.foldl update hasher = hasher.update pieces.flatten := by
  induction pieces with
  | nil => exact fun hasher => rfl
  | cons piece rest ih =>
      intro hasher
      rw [List.foldl_cons, ih, List.flatten_cons, update_append]

theorem checksum_eq_iff {a b : Bytes} :
    checksum a = checksum b ↔ start.update a = start.update b :=
  ⟨congrArg mk, congrArg digest⟩

/-- **What a digest sees of a window** is the weight of the bytes in it. -/
theorem checksum_window_eq_iff (front back : Bytes) {a b : Bytes} (length : a.length = b.length) :
    checksum (front ++ a ++ back) = checksum (front ++ b ++ back) ↔
      weight a ≡ weight b [MOD 2 ^ 64] := by
  rw [checksum_eq_iff, update_append, update_append, update_append, update_append,
    ← update_eq_iff (start.update front) length]
  exact ⟨update_injective back, congrArg (update · back)⟩

/-- **The digest is a polynomial** in the state before and the bytes fed, however they are cut
into pieces.  So the same bytes lead to the same digest from the same state only, and a part
of a block can be replaced unseen, by as many bytes, if and only if the parts on their own
have the same digest. -/
theorem digest_polynomial :
    (∀ (hasher : Djb2) (pieces : List Bytes),
        (pieces.foldl update hasher).digest.toNat =
          (hasher.digest.toNat * 33 ^ pieces.flatten.length + weight pieces.flatten) % 2 ^ 64) ∧
      (∀ (hasher other : Djb2) (pieces otherPieces : List Bytes),
        pieces.flatten = otherPieces.flatten →
          ((pieces.foldl update hasher).digest = (otherPieces.foldl update other).digest ↔
            hasher = other)) ∧
      ∀ front back a b : Bytes, a.length = b.length →
        (checksum (front ++ a ++ back) = checksum (front ++ b ++ back) ↔
          checksum a = checksum b) := by
  refine ⟨?_, ?_, ?_⟩
  · intro hasher pieces
    rw [foldl_update]
    exact toNat_digest_update hasher pieces.flatten
  · intro hasher other pieces otherPieces same
    rw [foldl_update, foldl_update, same]
    constructor
    · intro digests
      exact update_injective _ (congrArg mk digests)
    · rintro rfl
      rfl
  · intro front back a b length
    rw [checksum_window_eq_iff front back length, checksum_eq_iff, update_eq_iff start length]

/-- The digest does not see `ac` become `bB` at the end of `/etc/hac`, whatever follows it.
Three pieces, one of them empty, take the greatest state to the value of the polynomial, and
another state to another digest. -/
theorem digest_polynomial_ac :
    (∀ back, checksum ([0x2F, 0x65, 0x74, 0x63, 0x2F, 0x68] ++ [0x61, 0x63] ++ back) =
        checksum ([0x2F, 0x65, 0x74, 0x63, 0x2F, 0x68] ++ [0x62, 0x42] ++ back)) ∧
      ([[0x61], [], [0x62]].foldl update ⟨0xFFFFFFFFFFFFFFFF⟩).digest.toNat =
        ((2 ^ 64 - 1) * 33 ^ 2 + (0x61 * 33 + 0x62)) % 2 ^ 64 ∧
      ([[0x61], [], [0x62]].foldl update ⟨0xFFFFFFFFFFFFFFFF⟩).digest ≠
        ([[0x61, 0x62]].foldl update start).digest := by
  have weighed : weight ([[0x61], [], [0x62]] : List Bytes).flatten = 0x61 * 33 + 0x62 := by decide
  refine ⟨?_, ?_, ?_⟩
  · intro back
    exact (digest_polynomial.2.2 _ back [0x61, 0x63] [0x62, 0x42] rfl).mpr (by decide)
  · rw [digest_polynomial.1, weighed]
    rfl
  · intro same
    have started := (digest_polynomial.2.1 _ _ [[0x61], [], [0x62]] [[0x61, 0x62]] rfl).mp same
    revert started
    decide

end FlatArchive.Djb2
