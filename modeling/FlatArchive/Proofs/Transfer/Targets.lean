import FlatArchive.Proofs.FileSystem.Paths
import FlatArchive.Transfer.Extract
import Mathlib.Logic.Relation

/-!
# The file that a path means

An extraction takes the names out of a path one after the other.  What this comes to does not
depend on the order: two dots are refused wherever they stand, and otherwise the pieces that
are no dots are the names (`targetNames_eq`).  The path that is written to has these names
behind the destination, so it is below it, and as many names further down.

How the names are kept apart does not matter either.  Slashes and dots that are added to a
text change nothing but the words in which it is refused (`resolveTarget_padded`).
-/

namespace FlatArchive

open Relation

/-! ## Texts of names -/

namespace Utf8

theorem encode_append (first second : String) :
    encode (first ++ second) = encode first ++ encode second := by
  rw [encode, String.toList_append, List.flatMap_append, encode, encode]

/-- Texts with slashes between them are names with slashes between them. -/
theorem encode_intercalate (texts : List String) :
    encode ("/".intercalate texts) = PathText.join (texts.map encode) := by
  induction texts with
  | nil => rfl
  | cons text rest ih =>
      by_cases more : rest = []
      · subst more
        simp [PathText.join]
      · rw [String.intercalate_cons_of_ne_nil more, encode_append, encode_append, ih,
          List.map_cons, PathText.join_cons _ (by simpa using more), List.append_assoc]
        rfl

end Utf8

/-! ## Reading a path from the front -/

namespace Component

/-- The name, where there is one. -/
def name? : Component → Option Name
  | .name given => some given
  | _ => none

@[simp] theorem name?_root : root.name? = none := rfl

@[simp] theorem name?_here : here.name? = none := rfl

@[simp] theorem name?_above : above.name? = none := rfl

@[simp] theorem name?_name (given : Name) : (name given).name? = some given := rfl

theorem ofName_eq_above_iff {given : Name} : ofName given = above ↔ given = dotDot := by
  unfold ofName
  split
  · next isDot => simp [isDot, dot, dotDot]
  · split
    · next isDotDot => simp [isDotDot]
    · next other => simp [other]

theorem ofName_eq_name_iff {given other : Name} :
    ofName given = name other ↔ given = other ∧ other ≠ dot ∧ other ≠ dotDot := by
  unfold ofName
  split
  · next isDot =>
    simp only [reduceCtorEq, false_iff, not_and]
    rintro rfl ne_dot
    exact absurd isDot ne_dot
  · next ne_dot =>
    split
    · next isDotDot =>
      simp only [reduceCtorEq, false_iff, not_and, not_not]
      rintro rfl -
      exact isDotDot
    · next ne_dotDot =>
      rw [Component.name.injEq]
      refine ⟨?_, And.left⟩
      rintro rfl
      exact ⟨rfl, ne_dot, ne_dotDot⟩

theorem map_ofName_eq_iff {given names : List Name} :
    given.map ofName = names.map name ↔
      given = names ∧ ∀ own ∈ names, own ≠ dot ∧ own ≠ dotDot := by
  induction given generalizing names with
  | nil => cases names <;> simp
  | cons first rest ih =>
      cases names with
      | nil => simp
      | cons own others =>
          simp only [List.map_cons, List.cons.injEq, ofName_eq_name_iff, ih, List.forall_mem_cons]
          tauto

theorem filterMap_name?_eq_nil_iff {parts : List Component} :
    parts.filterMap name? = [] ↔ ∀ given, name given ∉ parts := by
  rw [List.filterMap_eq_nil_iff]
  constructor
  · intro none given member
    cases none _ member
  · intro none part member
    cases part with
    | name given => exact absurd member (none given)
    | root => rfl
    | here => rfl
    | above => rfl

/-- Of what names stand for, those are names that are no dots. -/
theorem filterMap_ofName (names : List Name) :
    (names.map ofName).filterMap name? = (names.filter (· ≠ dot)).filter (· ≠ dotDot) := by
  induction names with
  | nil => rfl
  | cons given rest ih =>
      by_cases isDot : given = dot
      · simpa [isDot, ofName, List.filterMap_cons] using ih
      · by_cases isDotDot : given = dotDot
        · have apart : dotDot ≠ dot := by decide
          simpa [isDotDot, apart, ofName, List.filterMap_cons] using ih
        · simp [isDot, isDotDot, ofName, ih]

end Component

namespace PathText

variable {text : PathText}

/-- A path reads as names if it does not start at the top and is taken apart into plain names. -/
theorem reading_eq_names_iff {names : List Name} :
    text.reading = names.map .name ↔
      text.isRooted = false ∧ text.components = names ∧ ∀ name ∈ names, name.IsPlain := by
  unfold reading
  dsimp only
  split
  · next rooted =>
    cases names <;> simp [rooted]
  · next relative =>
    rw [Bool.not_eq_true] at relative
    rw [Component.map_ofName_eq_iff]
    constructor
    · rintro ⟨rfl, undotted⟩
      exact ⟨relative, rfl, fun name member =>
        ⟨isPiece_of_mem_pieces (mem_pieces_of_mem_components member), (undotted name member).1,
          (undotted name member).2⟩⟩
    · rintro ⟨-, rfl, plain⟩
      exact ⟨rfl, fun name member => ⟨(plain name member).ne_dot, (plain name member).ne_dotDot⟩⟩

/-- Plain names with slashes between them read as these names. -/
theorem reading_join {names : List Name} (plain : ∀ name ∈ names, name.IsPlain) :
    (join names).reading = names.map .name := by
  have pieces : ∀ name ∈ names, name.IsPiece := fun name member => (plain name member).toIsPiece
  have cut : (join names).pieces = names := pieces_join pieces
  have joined : (join names).IsPlain := fun name member => plain name (cut ▸ member)
  exact reading_eq_names_iff.mpr
    ⟨isRooted_ofComponents false pieces, joined.components_eq.trans cut, plain⟩

/-- Behind a path, names are read after what the path reads as. -/
theorem reading_push {rel : PathText} {names : List Name} (read : rel.reading = names.map .name)
    (text : PathText) : (push text rel).reading = text.reading ++ rel.reading := by
  obtain ⟨relative, cut, plain⟩ := reading_eq_names_iff.mp read
  have undotted : dot ∉ rel.components := fun member => (plain dot (cut ▸ member)).ne_dot rfl
  rw [reading, reading, reading, isRooted_push_eq relative, components_push_eq relative undotted,
    relative]
  simp only [List.map_append]
  split <;> simp

/-- Two dots are read wherever they stand. -/
theorem above_mem_reading_iff :
    .above ∈ text.reading ↔ dotDot ∈ text.pieces.filter (· ≠ dot) := by
  have mem_iff : Component.above ∈ text.reading ↔ dotDot ∈ text.components := by
    unfold reading
    split <;> simp [Component.ofName_eq_above_iff]
  rw [mem_iff, ← filter_components]
  simp [dot, dotDot]

/-- The names that are read are the pieces that are no dots. -/
theorem filterMap_reading (text : PathText) :
    text.reading.filterMap Component.name? =
      (text.pieces.filter (· ≠ dot)).filter (· ≠ dotDot) := by
  rw [← filter_components, ← Component.filterMap_ofName]
  unfold reading
  dsimp only
  split
  · rw [List.filterMap_cons_none Component.name?_root]
  · rfl

end PathText

/-! ## What a path means -/

/-- What taking names comes to: two dots are refused wherever they stand. -/
theorem takeNames_eq (path : String) (names : List Name) (parts : List Component) :
    takeNames path names parts =
      if .above ∈ parts then .error (.pathEscapes path)
      else if names ++ parts.filterMap Component.name? = [] then .error (.pathEmpty path)
      else .ok (names ++ parts.filterMap Component.name?) := by
  induction parts generalizing names with
  | nil => simp [takeNames]
  | cons part rest ih =>
      cases part with
      | root => simp [takeNames, ih, List.filterMap_cons]
      | here => simp [takeNames, ih, List.filterMap_cons]
      | above => simp [takeNames]
      | name name => simp [takeNames, ih]

/-- **What the path of a record means**: nothing if there are two dots in it, and otherwise all
of its pieces that are no dots. -/
theorem targetNames_eq (path : String) :
    targetNames path =
      let parts := (PathText.pieces (Utf8.encode path)).filter (· ≠ dot)
      if dotDot ∈ parts then .error (.pathEscapes path)
      else if parts = [] then .error (.pathEmpty path)
      else .ok parts := by
  rw [targetNames, takeNames_eq, List.nil_append, PathText.filterMap_reading]
  simp only [PathText.above_mem_reading_iff]
  split
  · rfl
  · next inside =>
    have kept : ((PathText.pieces (Utf8.encode path)).filter (· ≠ dot)).filter (· ≠ dotDot) =
        (PathText.pieces (Utf8.encode path)).filter (· ≠ dot) :=
      List.filter_eq_self.mpr fun name member => by
        rw [decide_eq_true_iff]
        rintro rfl
        exact inside member
    rw [kept]

/-- A path means its pieces without dots, if there are any, and if none of them leads up. -/
theorem targetNames_eq_ok_iff {path : String} {names : List Name} :
    targetNames path = .ok names ↔
      (PathText.pieces (Utf8.encode path)).filter (· ≠ dot) = names ∧
        dotDot ∉ names ∧ names ≠ [] := by
  rw [targetNames_eq]
  dsimp only
  split
  · next inside =>
    simp only [reduceCtorEq, false_iff, not_and]
    rintro rfl outside
    exact absurd inside outside
  · next outside =>
    split
    · next none =>
      simp only [reduceCtorEq, false_iff, not_and]
      rintro rfl - some
      exact absurd none some
    · next some =>
      constructor
      · intro meant
        obtain rfl := Except.ok.inj meant
        exact ⟨rfl, outside, some⟩
      · rintro ⟨rfl, -, -⟩
        rfl

/-- A path with plain pieces means these pieces. -/
theorem targetNames_of_pieces {path : String} {names : List Name}
    (cut : PathText.pieces (Utf8.encode path) = names) (plain : ∀ name ∈ names, name.IsPlain)
    (nonempty : names ≠ []) : targetNames path = .ok names := by
  refine targetNames_eq_ok_iff.mpr ⟨?_, fun member => (plain _ member).ne_dotDot rfl, nonempty⟩
  rw [cut]
  refine List.filter_eq_self.mpr fun name member => ?_
  simpa using (plain name member).ne_dot

/-- The names that a record's path means are plain. -/
theorem isPlain_of_targetNames {path : String} {names : List Name}
    (meant : targetNames path = .ok names) : ∀ name ∈ names, name.IsPlain := by
  obtain ⟨rfl, inside, -⟩ := targetNames_eq_ok_iff.mp meant
  intro name member
  obtain ⟨piece, ne_dot⟩ := List.mem_filter.mp member
  refine ⟨PathText.isPiece_of_mem_pieces piece, by simpa using ne_dot, ?_⟩
  rintro rfl
  exact inside member

/-- A path that means nothing is refused as what it is. -/
theorem kind_of_targetNames {path : String} {e : IoError}
    (refused : targetNames path = .error e) : e.kind = .invalidInput := by
  rw [targetNames_eq] at refused
  dsimp only at refused
  split at refused
  · obtain rfl := Except.error.inj refused
    rfl
  · split at refused
    · obtain rfl := Except.error.inj refused
      rfl
    · cases refused

/-- A target is the destination with the names behind it that the path means. -/
theorem resolveTarget_eq_ok_iff {destination target : PathText} {path : String} :
    resolveTarget destination path = .ok target ↔
      ∃ names, targetNames path = .ok names ∧ destination.extend names = target := by
  unfold resolveTarget
  cases targetNames path <;> simp [Except.map]

theorem resolveTarget_eq_error_iff {destination : PathText} {path : String} {e : IoError} :
    resolveTarget destination path = .error e ↔ targetNames path = .error e := by
  unfold resolveTarget
  cases targetNames path <;> simp [Except.map]

/-- Refused are paths with two dots in them, and paths without a name. -/
theorem targetNames_refused_iff {path : String} :
    (∃ e, targetNames path = .error e) ↔
      .above ∈ PathText.reading (Utf8.encode path) ∨
        ∀ name, .name name ∉ PathText.reading (Utf8.encode path) := by
  rw [targetNames, takeNames_eq, List.nil_append, ← Component.filterMap_name?_eq_nil_iff]
  split
  · next inside => simp [inside]
  · next outside =>
    split
    · next none => simp [none]
    · next some => simp [some, outside]

/-! ## Texts that mean the same -/

/-- Something that says nothing is put into a text, in front, at the end or between two
pieces: an empty piece, which comes to one more slash, or a dot. -/
inductive Padded : String → String → Prop
  | insert (front back : List String) (pad : String) (idle : pad = "" ∨ pad = ".") :
      Padded ("/".intercalate (front ++ back)) ("/".intercalate (front ++ pad :: back))

/-- Padding adds no piece but dots. -/
theorem Padded.parts_eq {path padded : String} (more : Padded path padded) :
    (PathText.pieces (Utf8.encode padded)).filter (· ≠ dot) =
      (PathText.pieces (Utf8.encode path)).filter (· ≠ dot) := by
  obtain ⟨front, back, pad, idle⟩ := more
  have nothing : (PathText.pieces (Utf8.encode pad)).filter (· ≠ dot) = [] := by
    rcases idle with rfl | rfl
    · rfl
    · decide
  simp only [Utf8.encode_intercalate, PathText.pieces_join_eq_flatMap, List.map_append,
    List.map_cons, List.flatMap_append, List.flatMap_cons, List.filter_append, nothing,
    List.nil_append]

/-- **Padding a path changes nothing**, or only the words in which it is refused. -/
theorem resolveTarget_padded (destination : PathText) {path padded : String}
    (more : ReflTransGen Padded path padded) :
    (resolveTarget destination padded).mapError IoError.kind =
      (resolveTarget destination path).mapError IoError.kind := by
  induction more with
  | refl => rfl
  | tail _ more ih =>
      rw [← ih]
      simp only [resolveTarget, targetNames_eq, more.parts_eq]
      split
      · rfl
      · split
        · rfl
        · rfl

/-- **Where the file of a record goes.**  Of the pieces of a path, the empty ones and dots do not
count.  If two dots are left, or nothing, the path is refused as invalid input.  Otherwise what
is left is put behind the destination, and the file is that many names below it; and this is so
for the path with any slashes and dots added. -/
theorem resolveTarget_eq (destination : PathText) (path : String) :
    let parts := ((Utf8.encode path).splitOn slash).filter fun piece => piece ≠ [] ∧ piece ≠ dot
    (resolveTarget destination path =
        if dotDot ∈ parts then .error (.pathEscapes path)
        else if parts = [] then .error (.pathEmpty path)
        else .ok (destination.extend parts)) ∧
      (∀ e, resolveTarget destination path = .error e → e.kind = .invalidInput) ∧
      (∀ target, resolveTarget destination path = .ok target →
        parts ≠ [] ∧ (∀ part ∈ parts, Name.IsPlain part) ∧
          target.isRooted = destination.isRooted ∧
          target.components = destination.components ++ parts) ∧
      ∀ padded, ReflTransGen Padded path padded →
        (resolveTarget destination padded).mapError IoError.kind =
          (resolveTarget destination path).mapError IoError.kind := by
  intro parts
  have parts_eq : (PathText.pieces (Utf8.encode path)).filter (· ≠ dot) = parts := by
    rw [PathText.pieces, List.filter_filter]
    exact List.filter_congr fun piece _ => by simp [and_comm]
  refine ⟨?_, fun e refused => ?_, fun target resolved => ?_, fun padded => resolveTarget_padded _⟩
  · rw [resolveTarget, targetNames_eq, parts_eq]
    dsimp only
    split
    · rfl
    · split
      · rfl
      · rfl
  · exact kind_of_targetNames (resolveTarget_eq_error_iff.mp refused)
  · obtain ⟨names, meant, rfl⟩ := resolveTarget_eq_ok_iff.mp resolved
    obtain ⟨same, -, some⟩ := targetNames_eq_ok_iff.mp meant
    obtain rfl : parts = names := parts_eq.symm.trans same
    have plain := isPlain_of_targetNames meant
    exact ⟨some, plain, PathText.components_extend plain⟩

/-- Names may begin with dots. -/
example : (resolveTarget [0x6F] "/..a//./.../").toOption =
    some [0x6F, slash, 0x2E, 0x2E, 0x61, slash, 0x2E, 0x2E, 0x2E] := by decide +kernel

end FlatArchive
