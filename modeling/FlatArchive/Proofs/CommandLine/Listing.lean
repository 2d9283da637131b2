import FlatArchive.CommandLine.Run
import FlatArchive.Proofs.Text.Json
import FlatArchive.Proofs.Transfer.Unpacking

/-!
# A listing shows what is decoded

The command that shows what is in an archive goes through its entries by itself.  On every file
it comes to what decoding comes to (`CommandLine.run_list`): it succeeds if the bytes decode, it
shows the records in order, and if one entry is bad, nothing is shown of the others.

What is shown is said without the functions that print it.  A row shows a record
(`ListingRow.Shows`) if it has the path and the size of the record, the offset that is stored in
the table, and sixteen hexadecimal digits that stand for the digest of the block.  The rows can be
read from the output: as tokens of JSON (`ListingRow.json`), or as lines of a table, with spaces
between the columns (`ListingRow.IsTable`).
-/

namespace FlatArchive

/-! ## Rows -/

namespace ListingRow

/-- What a row shows of a record and of the row of the table that the record is from. -/
structure Shows (shown : ListingRow) (row : Row) (buffer : Bytes) (record : FileRecord) :
    Prop where
  path : shown.path = record.path
  size : shown.size = record.size.toNat
  offset : (shown.offset : Int) = row.offset
  length : shown.checksum.length = 16
  hexadecimal : ∀ c ∈ shown.checksum.toList, c ∈ Hexadecimal.alphabet
  checksum : Hexadecimal.value shown.checksum.toList =
    (Djb2.checksum (row.block buffer)).toNat

theorem shows_ofEntry {entry : Entry} {row : Row} {buffer : Bytes}
    (denotes : row.Denotes buffer entry.toRecord) (offset : (entry.offset : Int) = row.offset)
    (checksum : entry.checksum = row.checksum) :
    (ofEntry entry).Shows row buffer entry.toRecord where
  path := rfl
  size := denotes.size.symm
  offset := offset
  length := Hexadecimal.length_fixed 16 _
  hexadecimal := by
    intro c member
    rw [ofEntry, Hexadecimal.fixed, String.toList_ofList] at member
    exact Hexadecimal.mem_digits member
  checksum := by
    have word : entry.checksum.toNat < 16 ^ 16 := entry.checksum.toNat_lt
    rw [ofEntry, Hexadecimal.fixed, String.toList_ofList, Hexadecimal.value_digits,
      Nat.mod_eq_of_lt word, checksum, denotes.digest]

/-! ## The table -/

/-- Spaces that keep two columns apart. -/
def IsGap (gap : String) : Prop :=
  gap ≠ "" ∧ ∀ c ∈ gap.toList, c = ' '

/-- Four columns on one line. -/
def IsLine (line path size offset checksum : String) : Prop :=
  ∃ gap gap', IsGap gap ∧ IsGap gap' ∧
    line = path ++ gap ++ size ++ gap' ++ offset ++ "  " ++ checksum ++ "\n"

/-- The name of an archive, the names of the columns, a line for each row, and the number of
files and of bytes. -/
def IsTable (text title : String) (rows : List ListingRow) (total : Nat) : Prop :=
  ∃ heading lines, IsLine heading "Path" "Size" "Offset" "Checksum" ∧
    List.Forall₂ (fun row line =>
      IsLine line row.path (toString row.size) (toString row.offset) row.checksum) rows lines ∧
    text = s!"Archive: {title}\n" ++ heading ++ String.join lines ++
      s!"{rows.length} file(s), {total} bytes\n"

theorem eq_space_of_mem_fill {width : Nat} {text : String} {c : Char}
    (member : c ∈ (Listing.fill width text).toList) : c = ' ' := by
  rw [Listing.fill, String.toList_ofList] at member
  exact List.eq_of_mem_replicate member

theorem isGap_append {front back : String} (first : ∀ c ∈ front.toList, c = ' ')
    (last : ∀ c ∈ back.toList, c = ' ') : IsGap (front ++ " " ++ back) := by
  constructor
  · intro none
    simpa using congrArg String.toList none
  · intro c member
    simp only [String.toList_append, List.mem_append] at member
    rcases member with (left | middle) | right
    · exact first c left
    · exact List.mem_singleton.mp middle
    · exact last c right

theorem isLine_tableLine (path size offset checksum : String) :
    IsLine (Listing.tableLine path size offset checksum) path size offset checksum := by
  refine ⟨Listing.fill 40 path ++ " " ++ Listing.fill 12 size,
    "" ++ " " ++ Listing.fill 12 offset, ?_, ?_, ?_⟩
  · exact isGap_append (fun _ => eq_space_of_mem_fill) fun _ => eq_space_of_mem_fill
  · exact isGap_append (by simp) fun _ => eq_space_of_mem_fill
  · apply String.toList_injective
    simp only [Listing.tableLine, String.toList_append, List.append_assoc]
    rfl

theorem isTable_renderTable (listing : Listing) (title : String) :
    IsTable (listing.renderTable title) title listing.rows listing.totalSize := by
  refine ⟨_, _, isLine_tableLine _ _ _ _, ?_, rfl⟩
  rw [List.forall₂_map_right_iff]
  exact List.forall₂_same.mpr fun row _ => isLine_tableLine _ _ _ _

/-! ## JSON -/

/-- A row as an object. -/
def json (row : ListingRow) : List Json.Token :=
  Json.object [
    ("path", [.text row.path]),
    ("size", [.number row.size]),
    ("offset", [.number row.offset]),
    ("checksum", [.text row.checksum])]

end ListingRow

namespace Listing

open Json (Spells tokens)

/-- What a row is printed as, from quote to quote and from number to number. -/
theorem toList_renderRow (row : ListingRow) :
    (renderRow row).toList =
      "  \x7b\n".toList ++ ("    \"path\": ".toList ++ ((Quoted.encode row.path).toList ++
      (",\n".toList ++ ("    \"size\": ".toList ++ ((toString row.size).toList ++
      (",\n".toList ++ ("    \"offset\": ".toList ++ ((toString row.offset).toList ++
      (",\n".toList ++ ("    \"checksum\": ".toList ++ ((Quoted.encode row.checksum).toList ++
      "\n  \x7d".toList))))))))))) := by
  simp only [renderRow, String.toList_append, List.append_assoc]
  rfl

/-- The name of a value, moved in by four spaces. -/
theorem spells_name (name : String) :
    Spells ("    ".toList ++ (Quoted.encode name).toList ++ ": ".toList)
      [.text name, .mark ':'] :=
  ((Spells.plain (by decide)).append (.quoted name)).append (.plain (by decide))

theorem spells_comma : Spells ",\n".toList [.mark ','] :=
  .plain (by decide)

theorem spells_renderRow (row : ListingRow) : Spells (renderRow row).toList row.json := by
  have left : Spells "  \x7b\n".toList [.mark '{'] := .plain (by decide)
  have right : Spells "\n  \x7d".toList [.mark '}'] := .plain (by decide)
  -- from the end, since a number is known by what follows it
  have checksum := (spells_name "checksum").append ((Spells.quoted row.checksum).append right)
  have offset := (spells_name "offset").append
    (Spells.number row.offset (c := ',') (by decide) (spells_comma.append checksum))
  have size := (spells_name "size").append
    (Spells.number row.size (c := ',') (by decide) (spells_comma.append offset))
  have path := (spells_name "path").append
    ((Spells.quoted row.path).append (spells_comma.append size))
  rw [toList_renderRow]
  exact left.append path

/-- **The rows are read back from JSON**, whatever the paths are. -/
theorem tokens_renderJson (listing : Listing) :
    tokens listing.renderJson.toList = some (Json.array (listing.rows.map ListingRow.json)) := by
  unfold renderJson
  split
  · next empty =>
    rw [List.isEmpty_iff.mp empty]
    exact (Spells.plain (by decide)).tokens_eq
  · have left : Spells "[\n".toList [.mark '['] := .plain (by decide)
    have right : Spells "\n]\n".toList [.mark ']'] := .plain (by decide)
    simp only [String.toList_append, String.toList_intercalate, List.map_map]
    exact ((left.append (.intercalate spells_renderRow spells_comma _)).append right).tokens_eq

end Listing

/-! ## The command -/

namespace CommandLine

variable {files : FileSystem} {words : List Bytes} {verbose json : Bool} {archive : PathText}
  {bytes : Bytes} {records : List FileRecord}

/-- Nothing is shown of bytes that do not decode. -/
theorem list_of_decode_error {e : ArchiveError} (read : files.read archive = .ok bytes)
    (refused : decode bytes = .error e) (json : Bool) :
    (list files archive json).2 = .error e.message := by
  unfold list Listing.ofReader
  rcases decode_eq_error_iff_entries.mp refused with opened | ⟨reader, opened, listed⟩
  · simp only [read, opened]
  · simp only [read, opened, listed, Except.map]

/-- If bytes decode, the rows that are printed show the records, in order. -/
theorem list_of_decode_ok (read : files.read archive = .ok bytes)
    (decoded : decode bytes = .ok records) (json : Bool) :
    ∃ listing : Listing,
      (list files archive json).2 = .ok (if json then listing.renderJson
        else listing.renderTable (Utf8.lossy archive)) ∧
      listing.totalSize = bytes.totalSize.toNat ∧ listing.rows.length = records.length ∧
      ∀ i (inRows : i < listing.rows.length) (inRecords : i < records.length),
        listing.rows[i].Shows (bytes.row i) bytes records[i] := by
  obtain ⟨reader, entries, opened, listed, rfl⟩ := decode_eq_ok_iff_entries.mp decoded
  obtain rfl := Reader.bytes_of_ofBytes opened
  refine ⟨⟨entries.map ListingRow.ofEntry, reader.declared⟩, ?_, ?_, by simp, ?_⟩
  · unfold list Listing.ofReader
    simp only [read, opened, listed, Except.map]
  · exact congrArg Int.toNat reader.totalSize_eq
  · intro i inRows inRecords
    obtain ⟨length, each⟩ := Reader.entryAt_of_entries listed
    rw [List.length_map] at inRecords
    obtain ⟨denotes, offset, checksum⟩ := Reader.of_entryAt (length ▸ inRecords) (each i inRecords)
    simpa only [List.getElem_map] using ListingRow.shows_ofEntry denotes offset checksum

/-- **A listing shows what is decoded.**  On an archive file with whatever bytes, the command
succeeds if and only if the bytes decode, and it shows a row for each record, in order, as a table
or as JSON.  If the bytes do not decode, the command fails and its output is empty. -/
theorem run_list (asked : parse words = some ⟨verbose, .list archive json⟩)
    (read : files.read archive = .ok bytes) :
    let result := run files words
    result.files = files ∧
      (result.code = 0 ↔ ∃ records, decode bytes = .ok records) ∧
      (∀ e, decode bytes = .error e → result.code = 1 ∧ result.stdout = "") ∧
      ∀ records, decode bytes = .ok records →
        ∃ rows : List ListingRow, rows.length = records.length ∧
          (∀ i (inRows : i < rows.length) (inRecords : i < records.length),
            rows[i].Shows (bytes.row i) bytes records[i]) ∧
          (json = true →
            Json.tokens result.stdout.toList = some (Json.array (rows.map ListingRow.json))) ∧
          (json = false →
            ListingRow.IsTable result.stdout (Utf8.lossy archive) rows
              bytes.totalSize.toNat) := by
  have ran : run files words =
      finish verbose files (list files archive json).1 (list files archive json).2 := by
    rw [run, asked]
    rfl
  intro result
  cases decoded : decode bytes with
  | error e =>
      rw [list_of_decode_error read decoded json] at ran
      simp only [result, ran, finish]
      exact ⟨trivial, by simp, by simp, by simp⟩
  | ok records =>
      obtain ⟨listing, answered, total, length, shown⟩ := list_of_decode_ok read decoded json
      rw [answered] at ran
      simp only [result, ran, finish]
      refine ⟨trivial, by simp, by simp, ?_⟩
      rintro _ ⟨⟩
      refine ⟨listing.rows, length, shown, ?_, ?_⟩
      · rintro rfl
        exact listing.tokens_renderJson
      · rintro rfl
        rw [← total]
        exact ListingRow.isTable_renderTable listing _

/-- Of the three archives only the damaged one is not shown: where its files would be extracted
to is nothing that a listing asks. -/
theorem run_list_threeArchives :
    let files := FileSystem.threeArchives
    (run files [Utf8.encode "list", Utf8.encode "--json", Utf8.encode "a"]).code = 1 ∧
      (run files [Utf8.encode "list", Utf8.encode "--json", Utf8.encode "a"]).stdout = "" ∧
      (run files [Utf8.encode "list", Utf8.encode "b"]).code = 0 ∧
      (run files [Utf8.encode "-v", Utf8.encode "list", Utf8.encode "c"]).code = 0 := by
  intro files
  have asked : parse [Utf8.encode "list", Utf8.encode "--json", Utf8.encode "a"] =
      some ⟨false, .list [0x61] true⟩ := by
    cbv
  have asked' : parse [Utf8.encode "list", Utf8.encode "b"] =
      some ⟨false, .list [0x62] false⟩ := by
    cbv
  have asked'' : parse [Utf8.encode "-v", Utf8.encode "list", Utf8.encode "c"] =
      some ⟨true, .list [0x63] false⟩ := by
    cbv
  obtain ⟨code, nothing⟩ := (run_list asked FileSystem.read_damagedArchive).2.2.1 _
    FileSystem.decode_damagedArchive
  have listed := run_list asked' FileSystem.read_goodArchive
  have listed' := run_list asked'' FileSystem.read_escapingArchive
  exact ⟨code, nothing, listed.2.1.mpr ⟨_, FileSystem.decode_goodArchive⟩,
    listed'.2.1.mpr ⟨_, FileSystem.decode_escapingArchive⟩⟩

end CommandLine

end FlatArchive
