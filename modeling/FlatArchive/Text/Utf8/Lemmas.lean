import FlatArchive.Text.Utf8

/-!
# UTF-8 is exact

Strict reading accepts what writing produces and nothing else
(`decode_eq_ok_iff`): every text has one form in bytes, and bytes that are text
are written back as they were.

Both directions come from the same fact about a single character.  Reading finds
a character in front of some bytes exactly when they begin with the form of that
character: `scan_encodeChar` from the code point to the bytes, and
`eq_encodeChar_of_scan` back.  The ranges of `lead?` are what makes the second
one true; with wider ranges a code point would have a second, longer form.
-/

namespace FlatArchive.Utf8

/-! ## From the character to its bytes

One lemma for each length of the form, and each computes the code point back
from the parts into which the form divides it. -/

theorem toNat_ofNat_of_lt {n : Nat} (h : n < 256) : (UInt8.ofNat n).toNat = n := by
  rw [UInt8.toNat_ofNat']
  omega

/-- The first byte of a form of two bytes. -/
theorem lead?_two {n : Nat} (h1 : 0x80 ≤ n) (h2 : n < 0x800) :
    lead? (n / 64 % 32 + 192) = some { bits := n / 64, more := 1 } := by
  rw [lead?, if_neg (by omega), if_pos (by omega),
    show n / 64 % 32 + 192 - 0xC0 = n / 64 by omega]

/-- The first byte of a form of three bytes lets the second one pass. -/
theorem lead?_three {n : Nat} (h1 : 0x800 ≤ n) (h2 : n < 0x10000)
    (hv : n < 0xD800 ∨ 0xDFFF < n) :
    ∃ low high, lead? (n / 4096 % 16 + 224) = some ⟨n / 4096, 2, low, high⟩
      ∧ low ≤ n / 64 % 64 + 128 ∧ n / 64 % 64 + 128 ≤ high := by
  by_cases h0 : n / 4096 = 0
  · exact ⟨_, _, by rw [lead?, h0]; rfl, by omega, by omega⟩
  · by_cases hd : n / 4096 = 13
    · exact ⟨_, _, by rw [lead?, hd]; rfl, by omega, by omega⟩
    · refine ⟨0x80, 0xBF, ?_, by omega, by omega⟩
      rw [lead?, if_neg (by omega), if_neg (by omega), if_neg (by omega),
        if_neg (by omega), if_pos (by omega),
        show n / 4096 % 16 + 224 - 0xE0 = n / 4096 by omega]

/-- The first byte of a form of four bytes lets the second one pass. -/
theorem lead?_four {n : Nat} (h1 : 0x10000 ≤ n) (h2 : n < 0x110000) :
    ∃ low high, lead? (n / 262144 % 8 + 240) = some ⟨n / 262144, 3, low, high⟩
      ∧ low ≤ n / 4096 % 64 + 128 ∧ n / 4096 % 64 + 128 ≤ high := by
  by_cases h0 : n / 262144 = 0
  · exact ⟨_, _, by rw [lead?, h0]; rfl, by omega, by omega⟩
  · by_cases hd : n / 262144 = 4
    · exact ⟨_, _, by rw [lead?, hd]; rfl, by omega, by omega⟩
    · refine ⟨0x80, 0xBF, ?_, by omega, by omega⟩
      rw [lead?, if_neg (by omega), if_neg (by omega), if_neg (by omega),
        if_neg (by omega), if_neg (by omega), if_neg (by omega), if_pos (by omega),
        show n / 262144 % 8 + 240 - 0xF0 = n / 262144 by omega]

/-- A character below 0x80 is read back from its one byte. -/
theorem scan_one {n : Nat} (h : n < 0x80) (rest : Bytes) :
    scan (UInt8.ofNat n :: rest) = .char (Char.ofNat n) 1 rest := by
  rw [scan, toNat_ofNat_of_lt (by omega), if_pos h]

/-- A character below 0x800 is read back from its two bytes. -/
theorem scan_two {n : Nat} (h1 : 0x80 ≤ n) (h2 : n < 0x800) (rest : Bytes) :
    scan (UInt8.ofNat (n / 64 % 32 + 192) :: UInt8.ofNat (n % 64 + 128) :: rest)
      = .char (Char.ofNat n) 2 rest := by
  simp only [scan, scanTail, toNat_ofNat_of_lt (show n / 64 % 32 + 192 < 256 by omega),
    toNat_ofNat_of_lt (show n % 64 + 128 < 256 by omega), lead?_two h1 h2]
  rw [if_neg (by omega), if_pos (by omega),
    show n / 64 * 64 + (n % 64 + 128 - 128) = n by omega]

/-- A character below 0x10000, which is no surrogate, is read back from its three bytes. -/
theorem scan_three {n : Nat} (h1 : 0x800 ≤ n) (h2 : n < 0x10000)
    (hv : n < 0xD800 ∨ 0xDFFF < n) (rest : Bytes) :
    scan (UInt8.ofNat (n / 4096 % 16 + 224) :: UInt8.ofNat (n / 64 % 64 + 128)
      :: UInt8.ofNat (n % 64 + 128) :: rest) = .char (Char.ofNat n) 3 rest := by
  obtain ⟨low, high, hl, hlow, hhigh⟩ := lead?_three h1 h2 hv
  simp only [scan, scanTail, toNat_ofNat_of_lt (show n / 4096 % 16 + 224 < 256 by omega),
    toNat_ofNat_of_lt (show n / 64 % 64 + 128 < 256 by omega),
    toNat_ofNat_of_lt (show n % 64 + 128 < 256 by omega), hl]
  rw [if_neg (by omega), if_pos ⟨hlow, hhigh⟩, if_pos (by omega),
    show (n / 4096 * 64 + (n / 64 % 64 + 128 - 128)) * 64 + (n % 64 + 128 - 128) = n by omega]

/-- A character from 0x10000 on is read back from its four bytes. -/
theorem scan_four {n : Nat} (h1 : 0x10000 ≤ n) (h2 : n < 0x110000) (rest : Bytes) :
    scan (UInt8.ofNat (n / 262144 % 8 + 240) :: UInt8.ofNat (n / 4096 % 64 + 128)
      :: UInt8.ofNat (n / 64 % 64 + 128) :: UInt8.ofNat (n % 64 + 128) :: rest)
      = .char (Char.ofNat n) 4 rest := by
  obtain ⟨low, high, hl, hlow, hhigh⟩ := lead?_four h1 h2
  simp only [scan, scanTail, toNat_ofNat_of_lt (show n / 262144 % 8 + 240 < 256 by omega),
    toNat_ofNat_of_lt (show n / 4096 % 64 + 128 < 256 by omega),
    toNat_ofNat_of_lt (show n / 64 % 64 + 128 < 256 by omega),
    toNat_ofNat_of_lt (show n % 64 + 128 < 256 by omega), hl]
  rw [if_neg (by omega), if_pos ⟨hlow, hhigh⟩, if_pos (by omega), if_pos (by omega),
    show ((n / 262144 * 64 + (n / 4096 % 64 + 128 - 128)) * 64
      + (n / 64 % 64 + 128 - 128)) * 64 + (n % 64 + 128 - 128) = n by omega]

/-- The form of a character is read back, whatever follows it. -/
theorem scan_encodeChar (c : Char) (rest : Bytes) :
    scan (String.utf8EncodeChar c ++ rest)
      = .char c (String.utf8EncodeChar c).length rest := by
  have hc : Char.ofNat c.val.toNat = c := Char.ofNat_toNat c
  have hv : c.val.toNat < 0xD800 ∨ 0xDFFF < c.val.toNat ∧ c.val.toNat < 0x110000 := c.valid
  unfold String.utf8EncodeChar
  generalize c.val.toNat = n at hc hv
  subst hc
  simp only
  split
  · exact scan_one (by omega) rest
  · split
    · exact scan_two (by omega) (by omega) rest
    · split
      · exact scan_three (by omega) (by omega) (by omega) rest
      · exact scan_four (by omega) (by omega) rest

/-! ## From the bytes to the character -/

theorem val_ofNat_of_isValidChar {n : Nat} (h : n.isValidChar) :
    (Char.ofNat n).val.toNat = n := by
  rw [Char.ofNat, dif_pos h]
  exact UInt32.toNat_ofNatLT ..

theorem ofNat_eq_of_toNat_eq (b : UInt8) {n : Nat} (h : n = b.toNat) :
    UInt8.ofNat n = b := by
  rw [h, UInt8.ofNat_toNat]

theorem encodeChar_one {a : UInt8} (ha : a.toNat < 0x80) :
    String.utf8EncodeChar (Char.ofNat a.toNat) = [a] := by
  have hv : a.toNat.isValidChar := Or.inl (by omega)
  unfold String.utf8EncodeChar
  simp only [val_ofNat_of_isValidChar hv]
  rw [if_pos (by omega), UInt8.ofNat_toNat]

theorem encodeChar_two {a b : UInt8} (ha1 : 0xC2 ≤ a.toNat) (ha2 : a.toNat < 0xE0)
    (hb1 : 0x80 ≤ b.toNat) (hb2 : b.toNat ≤ 0xBF) :
    String.utf8EncodeChar (Char.ofNat ((a.toNat - 0xC0) * 64 + (b.toNat - 0x80)))
      = [a, b] := by
  have hv : ((a.toNat - 0xC0) * 64 + (b.toNat - 0x80)).isValidChar := Or.inl (by omega)
  unfold String.utf8EncodeChar
  simp only [val_ofNat_of_isValidChar hv]
  rw [if_neg (by omega), if_pos (by omega), ofNat_eq_of_toNat_eq a (by omega),
    ofNat_eq_of_toNat_eq b (by omega)]

theorem encodeChar_three {a b d : UInt8} (ha1 : 0xE0 ≤ a.toNat) (ha2 : a.toNat < 0xF0)
    (hlow : a.toNat = 0xE0 → 0xA0 ≤ b.toNat) (hhigh : a.toNat = 0xED → b.toNat ≤ 0x9F)
    (hb1 : 0x80 ≤ b.toNat) (hb2 : b.toNat ≤ 0xBF)
    (hd1 : 0x80 ≤ d.toNat) (hd2 : d.toNat ≤ 0xBF) :
    String.utf8EncodeChar (Char.ofNat
        (((a.toNat - 0xE0) * 64 + (b.toNat - 0x80)) * 64 + (d.toNat - 0x80)))
      = [a, b, d] := by
  have hv : (((a.toNat - 0xE0) * 64 + (b.toNat - 0x80)) * 64
      + (d.toNat - 0x80)).isValidChar := by
    by_cases hlt : a.toNat < 0xED
    · exact Or.inl (by omega)
    · by_cases heq : a.toNat = 0xED
      · have := hhigh heq
        exact Or.inl (by omega)
      · exact Or.inr ⟨by omega, by omega⟩
  unfold String.utf8EncodeChar
  simp only [val_ofNat_of_isValidChar hv]
  rw [if_neg (by omega), if_neg (by omega), if_pos (by omega),
    ofNat_eq_of_toNat_eq a (by omega), ofNat_eq_of_toNat_eq b (by omega),
    ofNat_eq_of_toNat_eq d (by omega)]

theorem encodeChar_four {a b d e : UInt8} (ha1 : 0xF0 ≤ a.toNat) (ha2 : a.toNat < 0xF5)
    (hlow : a.toNat = 0xF0 → 0x90 ≤ b.toNat) (hhigh : a.toNat = 0xF4 → b.toNat ≤ 0x8F)
    (hb1 : 0x80 ≤ b.toNat) (hb2 : b.toNat ≤ 0xBF)
    (hd1 : 0x80 ≤ d.toNat) (hd2 : d.toNat ≤ 0xBF)
    (he1 : 0x80 ≤ e.toNat) (he2 : e.toNat ≤ 0xBF) :
    String.utf8EncodeChar (Char.ofNat
        ((((a.toNat - 0xF0) * 64 + (b.toNat - 0x80)) * 64 + (d.toNat - 0x80)) * 64
          + (e.toNat - 0x80)))
      = [a, b, d, e] := by
  have hv : ((((a.toNat - 0xF0) * 64 + (b.toNat - 0x80)) * 64
      + (d.toNat - 0x80)) * 64 + (e.toNat - 0x80)).isValidChar :=
    Or.inr ⟨by omega, by omega⟩
  unfold String.utf8EncodeChar
  simp only [val_ofNat_of_isValidChar hv]
  rw [if_neg (by omega), if_neg (by omega), if_neg (by omega),
    ofNat_eq_of_toNat_eq a (by omega), ofNat_eq_of_toNat_eq b (by omega),
    ofNat_eq_of_toNat_eq d (by omega), ofNat_eq_of_toNat_eq e (by omega)]

/-- What the table of first bytes says, in one line for each length. -/
theorem cases_of_lead? {b bits more low high : Nat}
    (hl : lead? b = some ⟨bits, more, low, high⟩) :
    (bits = b - 0xC0 ∧ more = 1 ∧ low = 0x80 ∧ high = 0xBF ∧ 0xC2 ≤ b ∧ b < 0xE0)
      ∨ (bits = b - 0xE0 ∧ more = 2 ∧ 0x80 ≤ low ∧ high ≤ 0xBF ∧ 0xE0 ≤ b ∧ b < 0xF0
        ∧ (b = 0xE0 → 0xA0 ≤ low) ∧ (b = 0xED → high ≤ 0x9F))
      ∨ (bits = b - 0xF0 ∧ more = 3 ∧ 0x80 ≤ low ∧ high ≤ 0xBF ∧ 0xF0 ≤ b ∧ b < 0xF5
        ∧ (b = 0xF0 → 0x90 ≤ low) ∧ (b = 0xF4 → high ≤ 0x8F)) := by
  unfold lead? at hl
  repeat' split at hl
  all_goals simp only [Option.some.injEq, Lead.mk.injEq, reduceCtorEq] at hl <;> omega

theorem eq_cons_of_scanTail_one {bits low high size n : Nat} {bytes rest : Bytes} {c : Char}
    (h : scanTail bits size 1 low high bytes = .char c n rest) :
    ∃ b, bytes = b :: rest ∧ low ≤ b.toNat ∧ b.toNat ≤ high
      ∧ c = Char.ofNat (bits * 64 + (b.toNat - 0x80)) ∧ n = size + 1 := by
  cases bytes with
  | nil => simp [scanTail] at h
  | cons b tail =>
    rw [scanTail] at h
    split at h
    · next hb =>
      obtain ⟨rfl, rfl, rfl⟩ := Scan.char.inj h
      exact ⟨b, rfl, hb.1, hb.2, rfl, rfl⟩
    · simp at h

theorem eq_cons_of_scanTail_succ {bits low high size more n : Nat} {bytes rest : Bytes}
    {c : Char} (h : scanTail bits size (more + 1) low high bytes = .char c n rest) :
    ∃ b tail, bytes = b :: tail ∧ low ≤ b.toNat ∧ b.toNat ≤ high
      ∧ scanTail (bits * 64 + (b.toNat - 0x80)) (size + 1) more 0x80 0xBF tail
        = .char c n rest := by
  cases bytes with
  | nil => simp [scanTail] at h
  | cons b tail =>
    rw [scanTail] at h
    split at h
    · next hb => exact ⟨b, tail, rfl, hb.1, hb.2, h⟩
    · simp at h

/-- Bytes in which a character is read begin with its form. -/
theorem eq_encodeChar_of_scan {bytes rest : Bytes} {c : Char} {n : Nat}
    (h : scan bytes = .char c n rest) :
    bytes = String.utf8EncodeChar c ++ rest
      ∧ n = (String.utf8EncodeChar c).length := by
  cases bytes with
  | nil => simp [scan] at h
  | cons a tail =>
    rw [scan] at h
    split at h
    · next ha =>
      obtain ⟨rfl, rfl, rfl⟩ := Scan.char.inj h
      simp [encodeChar_one ha]
    · split at h
      · simp at h
      · next lead hl =>
        obtain ⟨bits, more, low, high⟩ := lead
        simp only at h
        rcases cases_of_lead? hl with ⟨hbits, hmore, hlow, hhigh, h1, h2⟩
          | ⟨hbits, hmore, hlow, hhigh, h1, h2, h3, h4⟩
          | ⟨hbits, hmore, hlow, hhigh, h1, h2, h3, h4⟩
          <;> rw [hbits, hmore] at h
        · rw [hlow, hhigh] at h
          obtain ⟨b, htail, hb1, hb2, hc, hn⟩ := eq_cons_of_scanTail_one h
          rw [htail, hc, hn, encodeChar_two h1 h2 hb1 hb2]
          exact ⟨rfl, rfl⟩
        · obtain ⟨b, tail, htail, hb1, hb2, h⟩ := eq_cons_of_scanTail_succ h
          obtain ⟨d, htail2, hd1, hd2, hc, hn⟩ := eq_cons_of_scanTail_one h
          rw [htail, htail2, hc, hn, encodeChar_three h1 h2 (fun ha => Nat.le_trans (h3 ha) hb1)
            (fun ha => Nat.le_trans hb2 (h4 ha)) (Nat.le_trans hlow hb1)
            (Nat.le_trans hb2 hhigh) hd1 hd2]
          exact ⟨rfl, rfl⟩
        · obtain ⟨b, tail, htail, hb1, hb2, h⟩ := eq_cons_of_scanTail_succ h
          obtain ⟨d, tail2, htail2, hd1, hd2, h⟩ := eq_cons_of_scanTail_succ h
          obtain ⟨e, htail3, he1, he2, hc, hn⟩ := eq_cons_of_scanTail_one h
          rw [htail, htail2, htail3, hc, hn, encodeChar_four h1 h2
            (fun ha => Nat.le_trans (h3 ha) hb1) (fun ha => Nat.le_trans hb2 (h4 ha))
            (Nat.le_trans hlow hb1) (Nat.le_trans hb2 hhigh) hd1 hd2 he1 he2]
          exact ⟨rfl, rfl⟩

/-! ## Whole texts -/

/-- Decoding goes on through encoded characters to the end of them. -/
theorem decodeFrom_flatMap (position : Nat) (done chars : List Char) :
    decodeFrom position done (chars.flatMap String.utf8EncodeChar)
      = .ok (String.ofList (done.reverse ++ chars)) := by
  induction chars generalizing position done with
  | nil =>
    rw [List.flatMap_nil, List.append_nil, decodeFrom]
    split <;> simp_all [scan]
  | cons c chars ih =>
    rw [List.flatMap_cons, decodeFrom]
    split
    · next h => simp [scan_encodeChar] at h
    · next h =>
      rw [scan_encodeChar] at h
      obtain ⟨rfl, rfl, rfl⟩ := Scan.char.inj h
      rw [ih]
      simp
    · next h => simp [scan_encodeChar] at h
    · next h => simp [scan_encodeChar] at h

theorem scanTail_ne_finished {bits size more low high : Nat} {bytes : Bytes} :
    scanTail bits size more low high bytes ≠ .finished := by
  induction more generalizing bits size low high bytes with
  | zero => simp [scanTail]
  | succ more ih =>
    cases bytes with
    | nil => simp [scanTail]
    | cons b tail =>
      rw [scanTail]
      split
      · exact ih
      · simp

/-- What was decoded is the encoding of the characters that were read. -/
theorem toList_of_decodeFrom {position : Nat} {done : List Char} {bytes : Bytes}
    {text : String} (h : decodeFrom position done bytes = .ok text) :
    ∃ chars, text.toList = done.reverse ++ chars
      ∧ bytes = chars.flatMap String.utf8EncodeChar := by
  fun_induction decodeFrom position done bytes with
  | case1 position done bytes hs =>
    obtain rfl := Except.ok.inj h
    refine ⟨[], by simp, ?_⟩
    cases bytes with
    | nil => rfl
    | cons b tail =>
      rw [scan] at hs
      split at hs
      · simp at hs
      · split at hs
        · simp at hs
        · exact absurd hs scanTail_ne_finished
  | case2 position done bytes c size rest hs ih =>
    obtain ⟨chars, ht, hr⟩ := ih h
    refine ⟨c :: chars, by simpa using ht, ?_⟩
    rw [List.flatMap_cons, ← hr]
    exact (eq_encodeChar_of_scan hs).1
  | case3 => simp at h
  | case4 => simp at h

/-- Bytes are read as a text exactly if they are its form. -/
theorem decode_eq_ok_iff {bytes : Bytes} {text : String} :
    decode bytes = .ok text ↔ bytes = encode text := by
  constructor
  · intro h
    obtain ⟨chars, ht, hb⟩ := toList_of_decodeFrom h
    rw [hb, encode, ht]
    rfl
  · rintro rfl
    rw [decode, encode, decodeFrom_flatMap]
    simp

end FlatArchive.Utf8
