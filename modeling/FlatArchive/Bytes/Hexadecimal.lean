import FlatArchive.Bytes.Basic

/-!
# Hexadecimal text

Digests and bytes are shown to people in lower-case hexadecimal digits of a
fixed number, with leading zeros kept.  `length_fixed` is that number.

`fixed 16` of a word takes over what the library `hex` documents of encoding the
eight bytes of the word, the most significant first: two lower-case digits for each.
-/

namespace FlatArchive.Hexadecimal

/-- The digit for a value below sixteen. -/
def digit (n : Nat) : Char :=
  if n < 10 then Char.ofNat (48 + n) else Char.ofNat (87 + n)

/-- The `width` low digits of a number, most significant first. -/
def digits : Nat → Nat → List Char
  | 0, _ => []
  | width + 1, n => digits width (n / 16) ++ [digit (n % 16)]

/-- A number in exactly `width` digits. -/
def fixed (width n : Nat) : String :=
  String.ofList (digits width n)

/-- Two digits for a byte. -/
def ofByte (b : UInt8) : String :=
  fixed 2 b.toNat

/-- Two digits for each byte, in order. -/
def ofBytes (bytes : Bytes) : String :=
  String.join (bytes.map ofByte)

theorem length_digits (width n : Nat) : (digits width n).length = width := by
  induction width generalizing n with
  | zero => rfl
  | succ width ih => simp [digits, ih]

@[simp] theorem length_fixed (width n : Nat) : (fixed width n).length = width := by
  simp [fixed, length_digits]

end FlatArchive.Hexadecimal
