import FlatArchive.Bytes.LittleEndian

/-!
# Signed fields in unbounded numbers

A signed field is a word of the machine, and its value an integer without
bounds.  `signed` computes that integer from the bytes of the field alone, by
two's complement: the upper half of the numbers that fit in the field stands for
the negative ones.  `toInt_toInt64` says that the word read from eight bytes has
this value, so that statements about a buffer need not mention words at all.
-/

namespace FlatArchive.LittleEndian

/-- The integer that bytes stand for in two's complement. -/
def signed (bytes : Bytes) : Int :=
  if 2 * value bytes < capacity bytes.length then value bytes
  else (value bytes : Int) - capacity bytes.length

/-- The signed word in eight bytes has the value of these bytes. -/
theorem toInt_toInt64 (bytes : Bytes) (eight : bytes.length = 8) :
    (toInt64 bytes).toInt = signed bytes := by
  have bound : value bytes < UInt64.size := by
    rw [← capacity_eight, ← eight]
    exact value_lt bytes
  have word : (toInt64 bytes).toInt = (toUInt64 bytes).toBitVec.toInt := rfl
  have unsigned : (toUInt64 bytes).toBitVec.toNat = value bytes :=
    UInt64.toNat_ofNat_of_lt' bound
  rw [word, BitVec.toInt_eq_toNat_cond, unsigned, signed, eight, capacity_eight]

/-- The bytes of a signed word have its value. -/
theorem signed_ofInt64 (x : Int64) : signed (ofInt64 x) = x.toInt := by
  rw [← toInt_toInt64 _ (length_ofInt64 x), toInt64_ofInt64]

/-- Eight bytes are known from the unsigned word in them. -/
theorem toUInt64_injective {a b : Bytes} (eightA : a.length = 8) (eightB : b.length = 8)
    (same : toUInt64 a = toUInt64 b) : a = b := by
  rw [← ofUInt64_toUInt64 a eightA, same, ofUInt64_toUInt64 b eightB]

end FlatArchive.LittleEndian
