import FlatArchive.Bytes.Hexadecimal
import FlatArchive.Reader.Basic
import FlatArchive.Text.Quoted

/-!
# Listings

What an archive holds, one row for each entry, as a table for people or as JSON
for programs.  A listing is made of the files that an archive gives, so an
archive with a bad entry has none.

`renderJson` takes over the form that the library `serde_json` documents for its
pretty printing: one field on each line, two spaces for each level, a list without
elements closed on the line that opens it.
-/

namespace FlatArchive

/-- What is shown of a file in an archive. -/
structure ListingRow where
  path : String
  size : Nat
  offset : Nat
  /-- The digest of the block in sixteen hexadecimal digits. -/
  checksum : String
  deriving DecidableEq, Repr

/-- What is shown of an archive. -/
structure Listing where
  rows : List ListingRow
  /-- The size that the header declares. -/
  totalSize : Nat
  deriving DecidableEq, Repr

/-- The row of a file. -/
def ListingRow.ofEntry (entry : Entry) : ListingRow where
  path := entry.path
  size := entry.size
  offset := entry.offset
  checksum := Hexadecimal.fixed 16 entry.checksum.toNat

namespace Listing

/-- The listing of an archive, or what is wrong with its first bad entry. -/
def ofReader (reader : Reader) : Except ArchiveError Listing :=
  reader.entries.map fun entries => {
    rows := entries.map ListingRow.ofEntry
    totalSize := reader.declared }

/-! ## As a table -/

/-- Spaces that fill `text` up to `width` characters. -/
def fill (width : Nat) (text : String) : String :=
  String.ofList (List.replicate (width - text.length) ' ')

/-- One line of the table: paths start at the left, numbers end at the right. -/
def tableLine (path size offset checksum : String) : String :=
  s!"{path}{fill 40 path} {fill 12 size}{size} {fill 12 offset}{offset}  {checksum}\n"

/-- The listing as a table. -/
def renderTable (listing : Listing) (title : String) : String :=
  s!"Archive: {title}\n"
    ++ tableLine "Path" "Size" "Offset" "Checksum"
    ++ String.join (listing.rows.map fun row =>
        tableLine row.path (toString row.size) (toString row.offset) row.checksum)
    ++ s!"{listing.rows.length} file(s), {listing.totalSize} bytes\n"

/-! ## As JSON -/

/-- One row, moved in by two spaces. -/
def renderRow (row : ListingRow) : String :=
  "  \x7b\n"
    ++ s!"    \"path\": {Quoted.encode row.path},\n"
    ++ s!"    \"size\": {row.size},\n"
    ++ s!"    \"offset\": {row.offset},\n"
    ++ s!"    \"checksum\": {Quoted.encode row.checksum}\n"
    ++ "  \x7d"

/-- The listing as a JSON array of one object for each row. -/
def renderJson (listing : Listing) : String :=
  if listing.rows.isEmpty then "[]\n"
  else "[\n" ++ ",\n".intercalate (listing.rows.map renderRow) ++ "\n]\n"

end Listing

end FlatArchive
