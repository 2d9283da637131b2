import FlatArchive.Proofs.Transfer.Effects

/-!
# Extraction stays below its destination

Whatever the paths of records say, and wherever an extraction stops, it changes nothing
but what is at or below its destination, and the directories that lead there and were
missing.  Nothing that was there is taken away or becomes another kind of thing
(`extraction_confined`).

Two things keep each request of it there (`Effect.confined`).  The names that are taken from
the path of a record are plain, so the path that is written to has the pieces of the
destination in front (`pieces_extend`).  And where no link is met, a walk ends where its
pieces say (`place_of_arrives`); the extraction makes no links, so none is met later either.
-/

namespace FlatArchive

open Relation Walk

/-- A place is on the way to `home`, at `home` or below it. -/
def Place.Along (home place : Place) : Prop :=
  place <+: home ∨ home <+: place

/-- What is above a place along the way to `home` is along it too. -/
theorem Place.Along.of_prefix {home place front : Place} (along : home.Along place)
    (prefixed : front <+: place) : home.Along front := by
  rcases along with above | below
  · exact .inl (prefixed.trans above)
  · exact List.prefix_or_prefix_of_prefix prefixed below

namespace FileSystem

/-- There is no link on the way to `home`, at `home` or below it. -/
def IsClear (files : FileSystem) (home : Place) : Prop :=
  ∀ place, home.Along place → ∀ target, files.label? place ≠ some (.link target)

/-- What was changed is at or below `home`, directories that lead there apart; and
nothing was taken away, turned into another kind of thing or made a link. -/
structure Confined (home : Place) (before after : FileSystem) : Prop where
  outside : ∀ place, ¬ home <+: place →
    after.label? place = before.label? place ∨
      place <+: home ∧ before.label? place = none ∧ after.label? place = some .dir
  keeps : before.Keeps after
  unlinked : ∀ place target, after.label? place = some (.link target) →
    before.label? place = some (.link target)

namespace Confined

variable {home place : Place} {before files after : FileSystem} {label : Label}

theorem refl (home : Place) (files : FileSystem) : Confined home files files where
  outside _ _ := .inl rfl
  keeps := .refl files
  unlinked _ _ shown := shown

theorem trans (first : Confined home before files) (second : Confined home files after) :
    Confined home before after where
  outside place beside := by
    rcases second.outside place beside with same | ⟨above, free, made⟩
    · rcases first.outside place beside with same' | ⟨above, free, made⟩
      · exact .inl (same.trans same')
      · exact .inr ⟨above, free, same.trans made⟩
    · rcases first.outside place beside with same | ⟨_, _, made'⟩
      · exact .inr ⟨above, same.symm.trans free, made⟩
      · simp [free] at made'
  keeps := first.keeps.trans second.keeps
  unlinked place target shown :=
    first.unlinked place target (second.unlinked place target shown)

theorem isClear (confined : Confined home files after) (clear : files.IsClear home) :
    after.IsClear home :=
  fun place along target shown =>
    clear place along target (confined.unlinked place target shown)

/-- What puts a file or a directory somewhere makes no link. -/
theorem unlinked_of_update {target : PathText}
    (update : after.label? = Function.update files.label? place (some label))
    (other : ∀ target, label ≠ .link target) {shown : Place}
    (link : after.label? shown = some (.link target)) :
    files.label? shown = some (.link target) := by
  by_cases here : shown = place
  · subst here
    rw [update, Function.update_self, Option.some.injEq] at link
    exact absurd link (other target)
  · rwa [update, Function.update_of_ne here] at link

end Confined

variable {files after : FileSystem} {home : Place} {path destination : PathText} {data : Bytes}

/-! ## One request -/

/-- Where there is no link, a path leads where its pieces say. -/
theorem place_eq_pieces {mode : Mode} {slashed : Bool} {target : Target}
    (clear : files.IsClear home) (plain : path.IsPlain) (along : home.Along path.pieces)
    (arrives : Arrives files mode ⟨linkLimit, slashed, [], path.pieces⟩ (.ok target)) :
    target.place = path.pieces :=
  place_of_arrives arrives plain fun front prefixed text =>
    clear front (along.of_prefix prefixed) text

/-- With no link in the way, a directory is made where the names of its path say. -/
theorem createDir_confined (clear : files.IsClear home) (plain : path.IsPlain)
    (along : home.Along path.pieces) (made : files.createDir path = .ok after) :
    Confined home files after := by
  obtain ⟨parent, name, resolved, free, update⟩ := createDir_update made
  have here : parent ++ [name] = path.pieces :=
    place_eq_pieces clear plain along (check_of_resolveNew resolved).2
  rw [here] at free update
  refine ⟨fun place beside => ?_, createDir_keeps made, fun place target =>
    Confined.unlinked_of_update update (by simp)⟩
  by_cases changed : place = path.pieces
  · subst changed
    have above := along.resolve_right beside
    exact .inr ⟨above, free, by rw [update, Function.update_self]⟩
  · exact .inl (by rw [update, Function.update_of_ne changed])

/-- With no link in the way, a file is written where the names of its path say. -/
theorem writeFile_confined (clear : files.IsClear home) (plain : path.IsPlain)
    (below : home <+: path.pieces) (written : files.writeFile path data = .ok after) :
    Confined home files after := by
  obtain ⟨target, resolved, -, update⟩ := writeFile_update written
  have here : target.place = path.pieces :=
    place_eq_pieces clear plain (.inr below) (check_of_resolve resolved).2
  rw [here] at update
  refine ⟨fun place beside => .inl ?_, writeFile_keeps written, fun place target =>
    Confined.unlinked_of_update update (by simp)⟩
  have changed : place ≠ path.pieces := by
    rintro rfl
    exact beside below
  rw [update, Function.update_of_ne changed]

/-- One granted request of an extraction is confined to the destination. -/
theorem Effect.confined (effect : Effect destination files after) (plain : destination.IsPlain)
    (clear : files.IsClear destination.pieces) : Confined destination.pieces files after := by
  cases effect with
  | @directory names path plainAll above made =>
      have plainTarget := plain.extend plainAll
      have alongTarget : Place.Along destination.pieces (destination.extend names).pieces := by
        rw [PathText.pieces_extend fun name member => (plainAll name member).toIsPiece]
        exact .inr (List.prefix_append _ _)
      rcases List.mem_cons.mp above with rfl | member
      · exact createDir_confined clear plainTarget alongTarget made
      · obtain ⟨plainPath, front⟩ := plainTarget.prefix_of_mem_ancestors member
        exact createDir_confined clear plainPath (alongTarget.of_prefix front) made
  | file plainAll written =>
      refine writeFile_confined clear (plain.extend plainAll) ?_ written
      rw [PathText.pieces_extend fun name member => (plainAll name member).toIsPiece]
      exact List.prefix_append _ _

/-! ## Whole transfers -/

/-- So are any number of them, each of which leaves the way clear for the next one. -/
theorem Effects.confined (effects : Effects destination files after)
    (plain : destination.IsPlain) (clear : files.IsClear destination.pieces) :
    Confined destination.pieces files after := by
  induction effects with
  | refl => exact .refl _ files
  | tail _ effect ih => exact ih.trans (effect.confined plain (ih.isClear clear))

/-- **Extraction stays below its destination**, whatever it is given and wherever it
stops. -/
theorem extraction_confined (plain : destination.IsPlain)
    (clear : files.IsClear destination.pieces) :
    (∀ records, Confined destination.pieces files
      (files.extractAll destination records).files) ∧
      ∀ archive, Confined destination.pieces files
        (files.unpack archive destination).files :=
  ⟨fun records => (extractAll_effects files destination records).confined plain clear,
    fun archive => (unpack_effects files archive destination).confined plain clear⟩

/-- The destination `o` is missing, beside it there is a link to the top, and the paths of
the records lead to it in three ways. -/
theorem extraction_confined_besideLink :
    let files : FileSystem := ⟨[([0x6C], .link [slash])]⟩
    let destination : PathText := [0x6F]
    let records := ["a", "/l/b", "./../l/c"].map fun path => FileRecord.ofFile path [1]
    destination.IsPlain ∧ files.IsClear destination.pieces ∧
      Confined destination.pieces files (files.extractAll destination records).files ∧
      Confined destination.pieces files (files.unpack [0x6C] destination).files := by
  intro files destination records
  have pieces : destination.pieces = [[0x6F]] := PathText.pieces_of_isPiece (by decide)
  have plain : destination.IsPlain := by decide
  have clear : files.IsClear destination.pieces := by
    rw [pieces]
    rintro (_ | ⟨name, rest⟩) along target
    · simp
    · obtain rfl : name = [0x6F] := by
        rcases along with above | below
        · exact (List.cons_prefix_cons.mp above).1
        · exact (List.cons_prefix_cons.mp below).1.symm
      simp [files, label?, node?, List.lookup_cons]
  have confined := extraction_confined plain clear
  exact ⟨plain, clear, confined.1 records, confined.2 [0x6C]⟩

end FileSystem

end FlatArchive
