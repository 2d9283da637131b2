import FlatArchive.Bytes.Basic

/-!
# UTF-8

Paths are text, and a file stores them in UTF-8.  Reading is strict: shortest
forms only, no surrogates, nothing past U+10FFFF.  What a reader learns from a
refusal is where the trouble starts and how far it reaches, so both are part of
`Utf8Error`.

The rule of the encoding sits in one table, `lead?`: what a first byte
contributes, how many bytes follow it, and the range in which the *second* byte
must lie.  Shortest forms, surrogates and the upper limit are all excluded by
that range, and every later byte is an ordinary continuation byte.  A bad byte
therefore spoils exactly the bytes before it in its character (at least one).

`decode` is the strict reading.  `lossy` never fails: each spoilt stretch is
shown as one U+FFFD, which is how names that are not text appear in messages.
-/

namespace FlatArchive

/-- Why bytes are not UTF-8; positions count bytes from the start. -/
inductive Utf8Error
  /-- The `size` bytes at `position` cannot be part of any character. -/
  | invalid (size position : Nat)
  /-- The bytes end inside the character that starts at `position`. -/
  | incomplete (position : Nat)
  deriving DecidableEq, Repr

/-- The words in which a refusal is reported. -/
def Utf8Error.message : Utf8Error → String
  | .invalid size position =>
    s!"invalid utf-8 sequence of {size} bytes from index {position}"
  | .incomplete position =>
    s!"incomplete utf-8 byte sequence from index {position}"

namespace Utf8

/-- The bytes of a text. -/
def encode (text : String) : Bytes :=
  text.toList.flatMap String.utf8EncodeChar

/-- What the first byte of a longer character announces. -/
structure Lead where
  /-- The part of the code point that the first byte holds. -/
  bits : Nat
  /-- How many bytes follow. -/
  more : Nat
  /-- The least second byte. -/
  low : Nat := 0x80
  /-- The greatest second byte. -/
  high : Nat := 0xBF
  deriving DecidableEq, Repr

/-- The first bytes of characters of two, three and four bytes. -/
def lead? (b : Nat) : Option Lead :=
  if b < 0xC2 then none
  else if b < 0xE0 then some { bits := b - 0xC0, more := 1 }
  else if b = 0xE0 then some { bits := 0, more := 2, low := 0xA0 }
  else if b = 0xED then some { bits := 0xD, more := 2, high := 0x9F }
  else if b < 0xF0 then some { bits := b - 0xE0, more := 2 }
  else if b = 0xF0 then some { bits := 0, more := 3, low := 0x90 }
  else if b < 0xF4 then some { bits := b - 0xF0, more := 3 }
  else if b = 0xF4 then some { bits := 4, more := 3, high := 0x8F }
  else none

/-- What stands at the front of some bytes. -/
inductive Scan
  /-- There are none. -/
  | finished
  /-- A character of `size` bytes, and what follows it. -/
  | char (c : Char) (size : Nat) (rest : Bytes)
  /-- `size` bytes that belong to no character. -/
  | invalid (size : Nat)
  /-- The beginning of a character, and no more. -/
  | incomplete
  deriving DecidableEq, Repr

/-- Reads the `more` bytes that are left of a character of which `size` bytes
are read and make up `bits`.  The next one must lie between `low` and `high`. -/
def scanTail (bits size : Nat) : (more low high : Nat) → Bytes → Scan
  | 0, _, _, rest => .char (Char.ofNat bits) size rest
  | _ + 1, _, _, [] => .incomplete
  | more + 1, low, high, b :: rest =>
    if low ≤ b.toNat ∧ b.toNat ≤ high then
      scanTail (bits * 64 + (b.toNat - 0x80)) (size + 1) more 0x80 0xBF rest
    else .invalid size

/-- Looks at the front of some bytes. -/
def scan : Bytes → Scan
  | [] => .finished
  | b :: rest =>
    if b.toNat < 0x80 then .char (Char.ofNat b.toNat) 1 rest
    else match lead? b.toNat with
      | none => .invalid 1
      | some lead => scanTail lead.bits 1 lead.more lead.low lead.high rest

theorem length_of_scanTail {bits size more low high n : Nat} {bytes rest : Bytes} {c : Char}
    (h : scanTail bits size more low high bytes = .char c n rest) :
    rest.length + more = bytes.length := by
  induction more generalizing bits size low high bytes with
  | zero => simp_all [scanTail]
  | succ more ih =>
    cases bytes with
    | nil => simp [scanTail] at h
    | cons b tail =>
      rw [scanTail] at h
      split at h
      · have := ih h
        simp only [List.length_cons]
        omega
      · simp at h

/-- A character takes at least one byte, so reading on ends. -/
theorem length_lt_of_scan {bytes rest : Bytes} {c : Char} {n : Nat}
    (h : scan bytes = .char c n rest) : rest.length < bytes.length := by
  cases bytes with
  | nil => simp [scan] at h
  | cons b tail =>
    rw [scan] at h
    split at h
    · obtain ⟨_, _, rfl⟩ := Scan.char.inj h
      exact Nat.lt_succ_self _
    · split at h
      · simp at h
      · have := length_of_scanTail h
        simp only [List.length_cons]
        omega

/-- Reads on from `position`, where `done` holds what was read, last first. -/
def decodeFrom (position : Nat) (done : List Char) (bytes : Bytes) :
    Except Utf8Error String :=
  match _h : scan bytes with
  | .finished => .ok (String.ofList done.reverse)
  | .char c size rest => decodeFrom (position + size) (c :: done) rest
  | .invalid size => .error (.invalid size position)
  | .incomplete => .error (.incomplete position)
termination_by bytes.length
decreasing_by exact length_lt_of_scan _h

/-- The text that bytes stand for, or what is wrong with them. -/
def decode (bytes : Bytes) : Except Utf8Error String :=
  decodeFrom 0 [] bytes

/-- U+FFFD, which stands for bytes that are not text. -/
def replacement : Char := Char.ofNat 0xFFFD

/-- Shows bytes as text, with one replacement character for each stretch that
belongs to no character; `done` holds what was shown, last first. -/
def lossyFrom (done : List Char) (bytes : Bytes) : List Char :=
  match _h : scan bytes with
  | .finished => done.reverse
  | .char c _ rest => lossyFrom (c :: done) rest
  | .invalid size => lossyFrom (replacement :: done) (bytes.drop (max size 1))
  | .incomplete => (replacement :: done).reverse
termination_by bytes.length
decreasing_by
  · exact length_lt_of_scan _h
  · have hb : bytes ≠ [] := by
      intro hb
      simp [hb, scan] at _h
    have := List.length_pos_iff.mpr hb
    rw [List.length_drop]
    omega

/-- Shows bytes as text whether they are text or not. -/
def lossy (bytes : Bytes) : String :=
  String.ofList (lossyFrom [] bytes)

end Utf8

end FlatArchive
