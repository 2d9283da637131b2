import FlatArchive.Bytes.Basic

/-!
# The digest of a block

A block is guarded by the 64-bit DJB2 digest: from the seed 5381, each byte
multiplies the state by 33 and is added to it, modulo 2 ^ 64.  The digest finds
accidents in transcription; it is no defence against an adversary.

The state is a machine word, so that the reduction modulo 2 ^ 64 is the
arithmetic of the type and not a step that could be forgotten.  `update_append`
is what lets a block be fed in pieces.
-/

namespace FlatArchive

/-- A digest under way: the state after the bytes fed so far. -/
structure Djb2 where
  state : UInt64
  deriving DecidableEq, Repr

namespace Djb2

/-- The state before any byte. -/
def seed : UInt64 := 5381

/-- A digest that has seen nothing. -/
def start : Djb2 := ⟨seed⟩

/-- The effect of one byte on the state. -/
def step (state : UInt64) (b : UInt8) : UInt64 :=
  state * 33 + b.toUInt64

/-- Feeds more bytes. -/
def update (hasher : Djb2) (bytes : Bytes) : Djb2 :=
  ⟨bytes.foldl step hasher.state⟩

/-- The digest of what was fed. -/
def digest (hasher : Djb2) : UInt64 :=
  hasher.state

/-- The digest of a whole sequence of bytes. -/
def checksum (bytes : Bytes) : UInt64 :=
  (start.update bytes).digest

@[simp] theorem update_nil (hasher : Djb2) : hasher.update [] = hasher := rfl

/-- It makes no difference in which pieces bytes are digested. -/
theorem update_append (hasher : Djb2) (front back : Bytes) :
    hasher.update (front ++ back) = (hasher.update front).update back := by
  simp [update]

end Djb2

end FlatArchive
