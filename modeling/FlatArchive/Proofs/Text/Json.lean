import FlatArchive.Proofs.Bytes.Hexadecimal
import FlatArchive.Text.Quoted

/-!
# JSON is read back

A JSON text is a row of marks, quoted texts and numbers, and blanks between them do not count.
`Json.tokens` takes a text apart in this way, and knows nothing of how texts are written here.
`Json.Spells` says that characters are those of certain tokens, whatever follows them: this holds
of the parts of a text and carries over to the whole.  Quoted text spells one token, whichever
characters are in it (`Json.Spells.quoted`), and so does a number (`Json.Spells.number`).
-/

namespace FlatArchive

/-! ## Quoted text -/

namespace Quoted

/-- The character that stands behind a backslash for another one. -/
def unescape : Char → Option Char
  | '"' => some '"'
  | '\\' => some '\\'
  | '/' => some '/'
  | 'n' => some '\n'
  | 'r' => some '\r'
  | 't' => some '\t'
  | 'b' => some (Char.ofNat 8)
  | 'f' => some (Char.ofNat 12)
  | _ => none

/-- Reads from behind a quote up to the next one that has no backslash before it; what follows
that is left over. -/
def read : List Char → Option (List Char × List Char)
  | [] => none
  | '"' :: rest => some ([], rest)
  | '\\' :: 'u' :: a :: b :: c :: d :: rest =>
    if [a, b, c, d] ⊆ Hexadecimal.alphabet ∧
        (Hexadecimal.value [a, b, c, d]).isValidChar then
      (read rest).map (Prod.map (Char.ofNat (Hexadecimal.value [a, b, c, d]) :: ·) id)
    else none
  | '\\' :: letter :: rest =>
    match unescape letter with
    | some c => (read rest).map (Prod.map (c :: ·) id)
    | none => none
  | c :: rest =>
    if c = '\\' ∨ c.toNat < 32 then none
    else (read rest).map (Prod.map (c :: ·) id)

variable {c letter : Char} {rest : List Char}

/-- The three ways in which a character is written: by a letter, by a number, or as it is. -/
theorem escape_cases (c : Char) :
    (∃ letter, escape c = ['\\', letter] ∧ letter ≠ 'u' ∧ unescape letter = some c) ∨
      (c.toNat < 32 ∧ escape c = ['\\', 'u'] ++ Hexadecimal.digits 4 c.toNat) ∨
      (c ≠ '"' ∧ c ≠ '\\' ∧ 32 ≤ c.toNat ∧ escape c = [c]) := by
  have backspace : c.toNat = 8 → c = Char.ofNat 8 := fun code => by
    rw [← code, Char.ofNat_toNat]
  have formFeed : c.toNat = 12 → c = Char.ofNat 12 := fun code => by
    rw [← code, Char.ofNat_toNat]
  unfold escape
  repeat' split
  · next own => exact .inl ⟨'"', rfl, by decide, by rw [own]; rfl⟩
  · next own => exact .inl ⟨'\\', rfl, by decide, by rw [own]; rfl⟩
  · next own => exact .inl ⟨'n', rfl, by decide, by rw [own]; rfl⟩
  · next own => exact .inl ⟨'r', rfl, by decide, by rw [own]; rfl⟩
  · next own => exact .inl ⟨'t', rfl, by decide, by rw [own]; rfl⟩
  · next code => exact .inl ⟨'b', rfl, by decide, congrArg some (backspace code).symm⟩
  · next code => exact .inl ⟨'f', rfl, by decide, congrArg some (formFeed code).symm⟩
  · next control => exact .inr (.inl ⟨control, rfl⟩)
  · next notQuote notBackslash _ _ _ _ _ printed =>
    exact .inr (.inr ⟨notQuote, notBackslash, Nat.not_lt.mp printed, rfl⟩)

/-- A character with a short escape is read back from it. -/
theorem read_letter (other : letter ≠ 'u') (known : unescape letter = some c) :
    read ('\\' :: letter :: rest) =
      (read rest).map (Prod.map (c :: ·) id) := by
  simp [read, other, known]

/-- A control character is read back from its number. -/
theorem read_code (control : c.toNat < 32) :
    read (['\\', 'u'] ++ Hexadecimal.digits 4 c.toNat ++ rest) =
      (read rest).map (Prod.map (c :: ·) id) := by
  have small : c.toNat < 16 ^ 4 := by omega
  have back := Hexadecimal.value_digits 4 c.toNat
  have known : Hexadecimal.digits 4 c.toNat ⊆ Hexadecimal.alphabet :=
    fun _ => Hexadecimal.mem_digits
  rw [Nat.mod_eq_of_lt small] at back
  obtain ⟨x, y, z, w, four⟩ := List.length_eq_four.mp (Hexadecimal.length_digits 4 c.toNat)
  rw [four] at back known ⊢
  have valid : c.toNat.isValidChar := c.valid
  change read ('\\' :: 'u' :: x :: y :: z :: w :: rest) = _
  rw [read, back, if_pos ⟨known, valid⟩, Char.ofNat_toNat]

/-- Any other character stands for itself. -/
theorem read_plain (notQuote : c ≠ '"') (notBackslash : c ≠ '\\') (printed : 32 ≤ c.toNat) :
    read (c :: rest) = (read rest).map (Prod.map (c :: ·) id) := by
  rw [read, if_neg (not_or.mpr ⟨notBackslash, Nat.not_lt.mpr printed⟩)]
  · exact notQuote
  · exact fun _ _ _ _ _ same _ => notBackslash same
  · exact fun _ _ same _ => notBackslash same

/-- A character is read back from the way it is written. -/
theorem read_escape (c : Char) (rest : List Char) :
    read (escape c ++ rest) = (read rest).map (Prod.map (c :: ·) id) := by
  rcases escape_cases c with ⟨letter, written, other, known⟩ | ⟨control, written⟩
    | ⟨notQuote, notBackslash, printed, written⟩
  · rw [written]
    exact read_letter other known
  · rw [written]
    exact read_code control
  · rw [written]
    exact read_plain notQuote notBackslash printed

/-- **Quoted text is read back**, whatever follows it. -/
theorem read_flatMap_escape (text rest : List Char) :
    read (text.flatMap escape ++ '"' :: rest) = some (text, rest) := by
  induction text with
  | nil => rfl
  | cons c text ih =>
      rw [List.flatMap_cons, List.append_assoc, read_escape, ih]
      rfl

theorem exists_of_map_cons {told : Option (List Char × List Char)} {text after : List Char}
    (more : told.map (Prod.map (c :: ·) id) = some (text, after)) :
    ∃ own, told = some (own, after) := by
  obtain ⟨⟨own, last⟩, told, same⟩ := Option.map_eq_some_iff.mp more
  obtain ⟨-, rfl⟩ := Prod.mk.inj same
  exact ⟨own, told⟩

/-- Reading takes at least the quote away. -/
theorem length_lt_of_read {chars text after : List Char} (told : read chars = some (text, after)) :
    after.length < chars.length := by
  fun_induction read chars generalizing text with
  | case1 => cases told
  | case2 rest =>
      obtain ⟨-, rfl⟩ := Prod.mk.inj (Option.some.inj told)
      exact Nat.lt_succ_self _
  | case3 a b c d rest known ih =>
      obtain ⟨own, told⟩ := exists_of_map_cons told
      have := ih told
      simp only [List.length_cons]
      omega
  | case4 => cases told
  | case5 letter rest other c known ih =>
      obtain ⟨own, told⟩ := exists_of_map_cons told
      have := ih told
      simp only [List.length_cons]
      omega
  | case6 => cases told
  | case7 => cases told
  | case8 c rest notQuote noCode noLetter printed ih =>
      obtain ⟨own, told⟩ := exists_of_map_cons told
      have := ih told
      simp only [List.length_cons]
      omega

end Quoted

/-! ## Tokens -/

namespace Json

/-- What a JSON text is made of. -/
inductive Token
  | mark (c : Char)
  | text (content : String)
  | number (n : Nat)
  deriving DecidableEq, Repr

/-- The characters that only keep tokens apart. -/
def blanks : List Char := [' ', '\n', '\r', '\t']

/-- The characters that are tokens by themselves. -/
def marks : List Char := ['[', ']', '{', '}', ',', ':']

/-- The tokens of a text, if it has nothing else between blanks.  Of the numbers of JSON, those
without a sign and without a fraction are read. -/
def tokens : List Char → Option (List Token)
  | [] => some []
  | c :: rest =>
    if c ∈ blanks then tokens rest
    else if c ∈ marks then (tokens rest).map (.mark c :: ·)
    else if c = '"' then
      match _told : Quoted.read rest with
      | some (text, after) => (tokens after).map (.text (String.ofList text) :: ·)
      | none => none
    else if c.isDigit then
      (tokens (rest.dropWhile Char.isDigit)).map
        (.number (Nat.ofDigitChars 10 (c :: rest.takeWhile Char.isDigit) 0) :: ·)
    else none
termination_by chars => chars.length
decreasing_by
  · exact Nat.lt_succ_self _
  · exact Nat.lt_succ_self _
  · exact Nat.lt_succ_of_lt (Quoted.length_lt_of_read _told)
  · exact Nat.lt_succ_of_le (List.dropWhile_sublist _).length_le

/-- The characters are those of the tokens, whatever follows them. -/
def Spells (chars : List Char) (found : List Token) : Prop :=
  ∀ rest, tokens (chars ++ rest) = (tokens rest).map (found ++ ·)

namespace Spells

variable {front back : List Char} {before behind found : List Token}

theorem tokens_eq (spells : Spells front found) : tokens front = some found := by
  have whole := spells []
  rw [List.append_nil] at whole
  rw [whole, tokens, Option.map_some, List.append_nil]

/-- Texts that spell tokens spell them one after the other. -/
theorem append (first : Spells front before) (second : Spells back behind) :
    Spells (front ++ back) (before ++ behind) := by
  intro rest
  rw [List.append_assoc, first, second, Option.map_map]
  congr 1
  funext found
  exact (List.append_assoc before behind found).symm

theorem nil : Spells [] [] := fun rest => by simp

theorem blank {c : Char} (member : c ∈ blanks) : Spells [c] [] := by
  intro rest
  rw [List.singleton_append, tokens, if_pos member]
  simp

theorem mark {c : Char} (member : c ∈ marks) : Spells [c] [.mark c] := by
  intro rest
  have apart : c ∉ blanks := by
    intro blank
    simp only [marks, blanks, List.mem_cons, List.not_mem_nil, or_false] at member blank
    rcases blank with rfl | rfl | rfl | rfl <;> simp at member
  rw [List.singleton_append, tokens, if_neg apart, if_pos member]
  rfl

/-- Characters that are only blanks and marks spell the marks. -/
theorem plain (only : front ⊆ blanks ++ marks) :
    Spells front ((front.filter (· ∈ marks)).map .mark) := by
  induction front with
  | nil => exact nil
  | cons c front ih =>
      obtain ⟨known, only⟩ := List.cons_subset.mp only
      by_cases isMark : c ∈ marks
      · rw [List.filter_cons_of_pos (by simpa using isMark)]
        exact (mark isMark).append (ih only)
      · rw [List.filter_cons_of_neg (by simpa using isMark)]
        exact (blank ((List.mem_append.mp known).resolve_right isMark)).append (ih only)

/-- Parts with something between them spell their tokens with its tokens between them. -/
theorem intercalate {α : Type} {form : α → List Char} {reading : α → List Token}
    (each : ∀ a, Spells (form a) (reading a)) (between : Spells front before) (items : List α) :
    Spells (front.intercalate (items.map form)) (before.intercalate (items.map reading)) := by
  induction items with
  | nil => exact nil
  | cons a items ih =>
      cases items with
      | nil => simpa using each a
      | cons b items =>
          simp only [List.map_cons, List.intercalate_cons_cons] at ih ⊢
          exact ((each a).append between).append ih

/-- **Quoted text is one token**, the text itself. -/
theorem quoted (text : String) : Spells (Quoted.encode text).toList [.text text] := by
  intro rest
  have back := Quoted.read_flatMap_escape text.toList rest
  rw [Quoted.encode, String.toList_ofList, List.cons_append, List.append_assoc,
    List.singleton_append, tokens, if_neg (by decide), if_neg (by decide), if_pos rfl]
  split
  · next found after told =>
    obtain ⟨rfl, rfl⟩ := Prod.mk.inj (Option.some.inj (told.symm.trans back))
    rw [String.ofList_toList]
    rfl
  · next told => cases told.symm.trans back

/-- A digit is nothing else. -/
theorem digit_apart {c : Char} (digit : c.isDigit) : c ∉ blanks ∧ c ∉ marks ∧ c ≠ '"' := by
  refine ⟨?_, ?_, ?_⟩
  · simp only [blanks, List.mem_cons, List.not_mem_nil, or_false]
    rintro (rfl | rfl | rfl | rfl) <;> simp at digit
  · simp only [marks, List.mem_cons, List.not_mem_nil, or_false]
    rintro (rfl | rfl | rfl | rfl | rfl | rfl) <;> simp at digit
  · rintro rfl
    simp at digit

/-- **A number is one token**, if something follows that is no digit. -/
theorem number (n : Nat) {c : Char} (apart : ¬ c.isDigit)
    (spells : Spells (c :: front) found) :
    Spells ((toString n).toList ++ c :: front) (.number n :: found) := by
  intro rest
  have all : ∀ digit ∈ Nat.toDigits 10 n, digit.isDigit := fun digit =>
    Nat.isDigit_of_mem_toDigits (by decide) (by decide)
  obtain ⟨first, digits, written⟩ := List.exists_cons_of_ne_nil (@Nat.toDigits_ne_nil n 10)
  have back : Nat.ofDigitChars 10 (first :: digits) 0 = n := by
    rw [← written, Nat.ofDigitChars_toDigits (by decide) (by decide)]
  rw [written] at all
  obtain ⟨noBlank, noMark, noQuote⟩ := digit_apart (all first List.mem_cons_self)
  have taken : (digits ++ c :: (front ++ rest)).takeWhile Char.isDigit = digits := by
    rw [List.takeWhile_append_of_pos fun digit member => all digit (List.mem_cons_of_mem _ member),
      List.takeWhile_cons_of_neg apart, List.append_nil]
  have left : (digits ++ c :: (front ++ rest)).dropWhile Char.isDigit = c :: (front ++ rest) := by
    rw [List.dropWhile_append_of_pos fun digit member => all digit (List.mem_cons_of_mem _ member),
      List.dropWhile_cons_of_neg apart]
  have printed : (toString n).toList = first :: digits := (Nat.toList_repr).trans written
  rw [printed, List.append_assoc, List.cons_append, List.cons_append, tokens, if_neg noBlank,
    if_neg noMark, if_neg noQuote, if_pos (all first List.mem_cons_self), taken, left, back,
    ← List.cons_append, spells, Option.map_map]
  rfl

end Spells

/-! ## Arrays and objects -/

/-- Parts between two marks, with commas between them. -/
def enclosed (left right : Char) (parts : List (List Token)) : List Token :=
  .mark left :: ([.mark ','].intercalate parts ++ [.mark right])

/-- The tokens of an array. -/
def array (parts : List (List Token)) : List Token :=
  enclosed '[' ']' parts

/-- The tokens of an object with named values. -/
def object (fields : List (String × List Token)) : List Token :=
  enclosed '{' '}' (fields.map fun (name, value) => .text name :: .mark ':' :: value)

end Json

end FlatArchive
