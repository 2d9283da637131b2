import FlatArchive.Proofs.Transfer.Targets
import FlatArchive.Text.Utf8.Lemmas
import FlatArchive.Transfer.Collect

/-!
# From names to the path of a record and back

A walk makes the text of a path from the names that lead to a file, and an extraction takes
names from the text.  The names that the text leads through are the record's `route`, and
they are the names that it was made from (`route_ofFile`); as long as they are names that a
directory can hold, they are also the names that an extraction uses (`targetNames_path`).
-/

namespace FlatArchive

/-- Neither of two places is at or below the other. -/
def Place.Apart (place other : Place) : Prop :=
  ¬ place <+: other ∧ ¬ other <+: place

theorem Place.Apart.symm {place other : Place} (apart : place.Apart other) :
    other.Apart place :=
  And.symm apart

/-- Behind different names, places are apart. -/
theorem Place.apart_of_ne {upper lower other : Place} {name name' : Name}
    (distinct : name ≠ name') :
    Place.Apart (upper ++ name :: lower) (upper ++ name' :: other) := by
  constructor
  · intro front
    rw [List.prefix_append_right_inj] at front
    exact distinct (List.cons_prefix_cons.mp front).1
  · intro front
    rw [List.prefix_append_right_inj] at front
    exact distinct (List.cons_prefix_cons.mp front).1.symm

/-! ## Texts of names -/

/-- What is in UTF-8. -/
def Name.IsText (name : Name) : Prop :=
  ∃ text, Utf8.encode text = name

namespace FileSystem

/-- Names are read as some texts exactly if they are the bytes of these. -/
theorem mapM_decode_eq_some_iff {names : List Name} {texts : List String} :
    (names.mapM fun name => (Utf8.decode name).toOption) = some texts ↔
      names = texts.map Utf8.encode := by
  induction names generalizing texts with
  | nil => simp [eq_comm]
  | cons name rest ih =>
      rw [List.mapM_cons]
      constructor
      · intro read
        obtain ⟨text, first, read⟩ := Option.bind_eq_some_iff.mp read
        obtain ⟨others, further, read⟩ := Option.bind_eq_some_iff.mp read
        obtain rfl := Option.some.inj read
        have decoded : Utf8.decode name = .ok text := by
          cases result : Utf8.decode name with
          | error e => simp [result, Except.toOption] at first
          | ok other => simpa [result, Except.toOption] using first
        rw [List.map_cons, ← Utf8.decode_eq_ok_iff.mp decoded, ← ih.mp further]
      · intro cut
        cases texts with
        | nil => cases cut
        | cons text others =>
            obtain ⟨rfl, rest_eq⟩ := List.cons.inj cut
            have decoded : Utf8.decode (Utf8.encode text) = .ok text :=
              Utf8.decode_eq_ok_iff.mpr rfl
            rw [ih.mpr rest_eq, decoded]
            rfl

/-- Names have a text exactly if each of them is in UTF-8. -/
theorem relativePath_eq_ok_iff {names : List Name} {text : String} :
    relativePath names = .ok text ↔
      ∃ texts, names = texts.map Utf8.encode ∧ text = "/".intercalate texts := by
  unfold relativePath
  split
  · next texts read =>
    rw [mapM_decode_eq_some_iff] at read
    constructor
    · intro same
      exact ⟨texts, read, (Except.ok.inj same).symm⟩
    · rintro ⟨texts', cut, rfl⟩
      have same : some texts = some texts' := by
        rw [← mapM_decode_eq_some_iff.mpr read, ← mapM_decode_eq_some_iff.mpr cut]
      rw [Option.some.inj same]
  · next unread =>
    simp only [reduceCtorEq, false_iff, not_exists, not_and]
    intro texts cut
    simp [mapM_decode_eq_some_iff.mpr cut] at unread

/-- Names make a relative path exactly if each of them is text. -/
theorem exists_relativePath_iff {names : List Name} :
    (∃ text, relativePath names = .ok text) ↔ ∀ name ∈ names, name.IsText := by
  constructor
  · rintro ⟨text, made⟩ name member
    obtain ⟨texts, rfl, -⟩ := relativePath_eq_ok_iff.mp made
    obtain ⟨own, -, rfl⟩ := List.mem_map.mp member
    exact ⟨own, rfl⟩
  · intro texts
    have all : ∃ texts : List String, names = texts.map Utf8.encode := by
      induction names with
      | nil => exact ⟨[], rfl⟩
      | cons name rest ih =>
          obtain ⟨text, rfl⟩ := texts name List.mem_cons_self
          obtain ⟨others, rfl⟩ := ih fun other member => texts other (List.mem_cons_of_mem _ member)
          exact ⟨text :: others, rfl⟩
    obtain ⟨texts, cut⟩ := all
    exact ⟨_, relativePath_eq_ok_iff.mpr ⟨texts, cut, rfl⟩⟩

/-- Names that have no text are reported. -/
theorem relativePath_eq_error {names : List Name} {e : IoError}
    (failed : relativePath names = .error e) :
    e = .pathNotText (PathText.join names) ∧ ∃ name ∈ names, ¬ name.IsText := by
  constructor
  · unfold relativePath at failed
    split at failed
    · cases failed
    · exact (Except.error.inj failed).symm
  · by_contra texts
    push Not at texts
    obtain ⟨text, made⟩ := exists_relativePath_iff.mpr texts
    rw [made] at failed
    cases failed

/-- The text that is made of names is cut into these names. -/
theorem pieces_relativePath {names : List Name} {text : String}
    (made : relativePath names = .ok text) (pieces : ∀ name ∈ names, name.IsPiece) :
    PathText.pieces (Utf8.encode text) = names := by
  obtain ⟨texts, rfl, rfl⟩ := relativePath_eq_ok_iff.mp made
  rw [Utf8.encode_intercalate]
  exact PathText.pieces_join pieces

end FileSystem

/-! ## Routes -/

namespace FileRecord

/-- The names that the path of a record leads through. -/
def route (record : FileRecord) : Place :=
  PathText.pieces (Utf8.encode record.path)

/-- The path that is made of names leads through these names. -/
theorem route_ofFile {names : List Name} {text : String} (data : Bytes)
    (made : FileSystem.relativePath names = .ok text) (pieces : ∀ name ∈ names, name.IsPiece) :
    (FileRecord.ofFile text data).route = names :=
  FileSystem.pieces_relativePath made pieces

/-- An extraction uses the names that the path leads through. -/
theorem targetNames_path {record : FileRecord} (nonempty : record.route ≠ [])
    (entry : ∀ name ∈ record.route, name.IsEntry) :
    targetNames record.path = .ok record.route :=
  targetNames_of_pieces rfl (fun name member => (entry name member).toIsPlain) nonempty

end FileRecord

/-! ## There and back -/

/-- **A collected path is extracted to where it came from**, seen from the destination: names
that are text have a path, and the path is resolved to the destination with these names put
behind it.  That is where any path that reads as these names leads from the destination.  No
other names have the same path. -/
theorem resolveTarget_relativePath (destination : PathText) (names : List Name)
    (nonempty : names ≠ []) (plain : ∀ name ∈ names, name.IsPlain)
    (inText : ∀ name ∈ names, name.IsText) :
    ∃ text, FileSystem.relativePath names = .ok text ∧
      resolveTarget destination text = .ok (destination.push (PathText.join names)) ∧
      (PathText.join names).reading = names.map .name ∧
      (∀ rel : PathText, rel.reading = names.map .name →
        (destination.push rel).reading = (destination.push (PathText.join names)).reading) ∧
      ∀ other : List Name, (∀ name ∈ other, name.IsPlain) →
        FileSystem.relativePath other = .ok text → other = names := by
  have pieces : ∀ name ∈ names, name.IsPiece := fun name member => (plain name member).toIsPiece
  have joined := PathText.reading_join plain
  obtain ⟨text, made⟩ := FileSystem.exists_relativePath_iff.mpr inText
  have cut := FileSystem.pieces_relativePath made pieces
  refine ⟨text, made, ?_, joined, fun rel read => ?_, fun other plainOther same => ?_⟩
  · rw [resolveTarget, targetNames_of_pieces cut plain nonempty, Except.map,
      PathText.extend_eq_push_join pieces nonempty]
  · rw [PathText.reading_push read, PathText.reading_push joined, read, joined]
  · rw [← cut]
    exact (FileSystem.pieces_relativePath same fun name member =>
      (plainOther name member).toIsPiece).symm

/-- A directory called by three dots, one whose name begins with a dot and has a blank in it, and
a file with a backslash in its name, below a destination that ends in a slash. -/
theorem resolveTarget_relativePath_oddNames :
    let names : List Name :=
      [[0x2E, 0x2E, 0x2E], [0x2E, 0x61, 0x20, 0x62], [0x63, 0x5C, 0xC3, 0xA9]]
    FileSystem.relativePath names = .ok ".../.a b/c\\é" ∧
      resolveTarget [0x6F, slash] ".../.a b/c\\é" =
        .ok ([0x6F, slash] ++ PathText.join names) ∧
      ∀ other : List Name, (∀ name ∈ other, name.IsPlain) →
        FileSystem.relativePath other = .ok ".../.a b/c\\é" → other = names := by
  intro names
  have inText : ∀ name ∈ names, name.IsText := by
    simp only [names, List.forall_mem_cons]
    exact ⟨⟨"...", by decide⟩, ⟨".a b", by decide⟩, ⟨"c\\é", by decide⟩, by simp⟩
  have made : FileSystem.relativePath names = .ok ".../.a b/c\\é" := by decide +kernel
  obtain ⟨text, made', resolved, -, -, single⟩ :=
    resolveTarget_relativePath [0x6F, slash] names (by decide) (by decide) inText
  obtain rfl : text = ".../.a b/c\\é" := Except.ok.inj (made'.symm.trans made)
  exact ⟨made, resolved, single⟩

end FlatArchive
