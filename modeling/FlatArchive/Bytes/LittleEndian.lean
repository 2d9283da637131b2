import FlatArchive.Bytes.Basic

/-!
# Little-endian numbers

Every number of the format is written least significant byte first, in a field
of fixed width.  One pair of functions on natural numbers, `encode` and `value`,
carries all widths; the typed fields (`ofUInt64`, `ofInt64`, `ofUInt32` and
their readers) only choose a width and a type.

`value_encode` and `encode_value` say that the two are inverse on the numbers
that fit in the width, those below its `capacity`.  From them each typed pair is
a bijection: for instance `toInt64_ofInt64` and `ofInt64_toInt64`.
-/

namespace FlatArchive.LittleEndian

/-- The `width` low bytes of a number, least significant first. -/
def encode : Nat → Nat → Bytes
  | 0, _ => []
  | width + 1, n => UInt8.ofNat n :: encode width (n / 256)

/-- How many numbers a field of `width` bytes can tell apart. -/
def capacity : (width : Nat) → Nat
  | 0 => 1
  | width + 1 => 256 * capacity width

/-- The number that bytes stand for, the first being the least significant. -/
def value : Bytes → Nat
  | [] => 0
  | b :: rest => b.toNat + 256 * value rest

/-- A number is written in as many bytes as it is given. -/
@[simp] theorem length_encode (width n : Nat) : (encode width n).length = width := by
  induction width generalizing n with
  | zero => rfl
  | succ width ih => simp [encode, ih]

/-- Eight bytes hold the numbers of a word. -/
theorem capacity_eight : capacity 8 = UInt64.size := rfl

/-- Four bytes hold the numbers of half a word. -/
theorem capacity_four : capacity 4 = UInt32.size := rfl

/-- Bytes hold no number beyond their capacity. -/
theorem value_lt (bytes : Bytes) : value bytes < capacity bytes.length := by
  induction bytes with
  | nil => simp [value, capacity]
  | cons b rest ih =>
    have hb : b.toNat < 256 := b.toNat_lt
    simp only [value, List.length_cons, capacity]
    omega

/-- A number is read back if there were bytes enough for it. -/
theorem value_encode (width n : Nat) (h : n < capacity width) :
    value (encode width n) = n := by
  induction width generalizing n with
  | zero => simp_all [encode, value, capacity]
  | succ width ih =>
    have hn : n / 256 < capacity width := by
      rw [capacity] at h
      omega
    simp only [encode, value, ih _ hn, UInt8.toNat_ofNat']
    omega

/-- Bytes are written again as they were read. -/
theorem encode_value (bytes : Bytes) : encode bytes.length (value bytes) = bytes := by
  induction bytes with
  | nil => rfl
  | cons b rest ih =>
    have hb : b.toNat < 256 := b.toNat_lt
    have hd : (b.toNat + 256 * value rest) / 256 = value rest := by omega
    have hm : UInt8.ofNat (b.toNat + 256 * value rest) = b := by
      apply UInt8.toNat_inj.mp
      rw [UInt8.toNat_ofNat']
      omega
    simp only [List.length_cons, value, encode, hd, hm, ih]

/-! ## Typed fields -/

/-- Eight bytes for an unsigned word. -/
def ofUInt64 (x : UInt64) : Bytes :=
  encode 8 x.toNat

/-- The unsigned word in eight bytes. -/
def toUInt64 (bytes : Bytes) : UInt64 :=
  UInt64.ofNat (value bytes)

/-- Eight bytes for a signed word, in two's complement. -/
def ofInt64 (x : Int64) : Bytes :=
  ofUInt64 x.toUInt64

/-- The signed word in eight bytes. -/
def toInt64 (bytes : Bytes) : Int64 :=
  (toUInt64 bytes).toInt64

/-- Four bytes for an unsigned half word. -/
def ofUInt32 (x : UInt32) : Bytes :=
  encode 4 x.toNat

/-- The unsigned half word in four bytes. -/
def toUInt32 (bytes : Bytes) : UInt32 :=
  UInt32.ofNat (value bytes)

@[simp] theorem length_ofUInt64 (x : UInt64) : (ofUInt64 x).length = 8 :=
  length_encode 8 _

@[simp] theorem length_ofInt64 (x : Int64) : (ofInt64 x).length = 8 :=
  length_encode 8 _

@[simp] theorem length_ofUInt32 (x : UInt32) : (ofUInt32 x).length = 4 :=
  length_encode 4 _

/-- A word is read back. -/
@[simp] theorem toUInt64_ofUInt64 (x : UInt64) : toUInt64 (ofUInt64 x) = x := by
  rw [toUInt64, ofUInt64, value_encode 8 _ x.toNat_lt_size, UInt64.ofNat_toNat]

/-- A signed word is read back, below zero too. -/
@[simp] theorem toInt64_ofInt64 (x : Int64) : toInt64 (ofInt64 x) = x := by
  simp [toInt64, ofInt64]

@[simp] theorem toUInt32_ofUInt32 (x : UInt32) : toUInt32 (ofUInt32 x) = x := by
  rw [toUInt32, ofUInt32, value_encode 4 _ x.toNat_lt_size, UInt32.ofNat_toNat]

/-- Eight bytes are written again as they were read as a word. -/
theorem ofUInt64_toUInt64 (bytes : Bytes) (h : bytes.length = 8) :
    ofUInt64 (toUInt64 bytes) = bytes := by
  have hv : value bytes < UInt64.size := by
    rw [← capacity_eight, ← h]
    exact value_lt bytes
  rw [ofUInt64, toUInt64, UInt64.toNat_ofNat_of_lt' hv, ← h, encode_value]

/-- Eight bytes are written again as they were read as a signed word. -/
theorem ofInt64_toInt64 (bytes : Bytes) (h : bytes.length = 8) :
    ofInt64 (toInt64 bytes) = bytes := by
  simp [ofInt64, toInt64, ofUInt64_toUInt64 bytes h]

theorem ofUInt32_toUInt32 (bytes : Bytes) (h : bytes.length = 4) :
    ofUInt32 (toUInt32 bytes) = bytes := by
  have hv : value bytes < UInt32.size := by
    rw [← capacity_four, ← h]
    exact value_lt bytes
  rw [ofUInt32, toUInt32, UInt32.toNat_ofNat_of_lt' hv, ← h, encode_value]

end FlatArchive.LittleEndian
