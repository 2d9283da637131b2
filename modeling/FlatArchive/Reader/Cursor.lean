import FlatArchive.Reader.Basic

/-!
# Going through an archive entry by entry

A cursor is a place in the index table.  It yields one result per step and
comes to rest for good after the last entry or after the first bad one.  A
cursor is a value: to keep a copy is to keep the value, and steps of one copy do
not move another.
-/

namespace FlatArchive

/-- A place in the index table of an archive. -/
structure Cursor where
  reader : Reader
  /-- The entry of the next step. -/
  place : Nat
  /-- Whether a bad entry was met. -/
  failed : Bool
  place_le : place ≤ reader.count

/-- A cursor before the first entry. -/
def Reader.cursor (reader : Reader) : Cursor where
  reader := reader
  place := 0
  failed := false
  place_le := Nat.zero_le _

namespace Cursor

/-- One step: the result, unless the cursor is at rest, and the cursor after
it. -/
def next (cursor : Cursor) : Option (Except ArchiveError Entry) × Cursor :=
  if h : cursor.failed = false ∧ cursor.place < cursor.reader.count then
    let result := cursor.reader.entryAt cursor.place
    (some result, {
      cursor with
      place := cursor.place + 1
      failed := !result.isOk
      place_le := h.2 })
  else (none, cursor)

/-- Bounds on the number of results to come.  There may always be none, since
the next entry may be the first bad one that ends it all. -/
def sizeHint (cursor : Cursor) : Nat × Nat :=
  if cursor.failed then (0, 0) else (0, cursor.reader.count - cursor.place)

theorem place_of_next {cursor after : Cursor} {result : Except ArchiveError Entry}
    (h : cursor.next = (some result, after)) :
    cursor.place < cursor.reader.count ∧ after.place = cursor.place + 1
      ∧ after.reader = cursor.reader := by
  rw [next] at h
  split at h
  · next hc =>
    obtain ⟨-, rfl⟩ := Prod.mk.inj h
    exact ⟨hc.2, rfl, rfl⟩
  · simp at h

/-- All results to come. -/
def toList (cursor : Cursor) : List (Except ArchiveError Entry) :=
  match _h : cursor.next with
  | (none, _) => []
  | (some result, after) => result :: after.toList
termination_by cursor.reader.count - cursor.place
decreasing_by
  obtain ⟨hlt, hplace, hreader⟩ := place_of_next _h
  rw [hplace, hreader]
  omega

end Cursor

end FlatArchive
