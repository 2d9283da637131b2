import FlatArchive.Proofs.FileSystem.Requests

/-!
# Writing files again

What a directory shows does not say in which order it keeps its entries, so two trees that
look alike need not be equal.  Here trees are compared as they are.  Two changes of one place
come to the second of them (`put_put`), and two changes of places that are apart can change
their order if one of the places is taken (`put_comm`).

From that follows what a row of writes comes to when all its files are there already: a write
that a later one covers may be left out (`putFiles_covered`).  A row of writes that was made
once, with whatever directories were made in between, changes nothing when it is made again
(`Rewrites`): the last write to each place is the only one that counts, and what it would
write is there.
-/

namespace FlatArchive

/-! ## Changing entries twice -/

namespace Entries

variable {entries : Entries} {name other : Name}

/-- What keeps the names of entries can be done before a new one is put in. -/
theorem map_insertNew {change : Name × Node → Name × Node}
    (same : ∀ entry, (change entry).1 = entry.1) (name : Name) (node : Node) (entries : Entries) :
    (insertNew name node entries).map change =
      insertNew name (change (name, node)).2 (entries.map change) := by
  have new : change (name, node) = (name, (change (name, node)).2) :=
    Prod.ext (same (name, node)) rfl
  induction entries with
  | nil => rw [insertNew, List.map_singleton, List.map_nil, insertNew, ← new]
  | cons entry rest ih =>
      rw [insertNew, List.map_cons, insertNew, same entry]
      split
      · rw [List.map_cons, List.map_cons, ← new]
      · rw [List.map_cons, ih]

/-- Entries with other names stay what they are. -/
theorem map_of_lookup_none (free : entries.lookup name = none) (node : Node) :
    (entries.map fun entry => if entry.1 = name then (name, node) else entry) = entries := by
  refine (List.map_congr_left fun entry member => if_neg ?_).trans (List.map_id entries)
  rintro rfl
  simpa using List.lookup_eq_none_iff.mp free entry member

theorem keeps_name (name : Name) (node : Node) (entry : Name × Node) :
    (if entry.1 = name then (name, node) else entry).1 = entry.1 := by
  split
  · next here => exact here.symm
  · rfl

/-- The second meaning of a name is the one that it has. -/
theorem setEntry_setEntry (entries : Entries) (name : Name) (node node' : Node) :
    (entries.setEntry name node).setEntry name node' = entries.setEntry name node' := by
  have there : ((entries.setEntry name node).lookup name).isSome := by
    rw [lookup_setEntry_self]
    rfl
  rw [setEntry, if_pos there]
  unfold setEntry
  split
  · rw [List.map_map]
    refine List.map_congr_left fun entry _ => ?_
    by_cases here : entry.1 = name
    · simp [here]
    · simp [here]
  · next free =>
    rw [map_insertNew (keeps_name name node'),
      map_of_lookup_none (Option.not_isSome_iff_eq_none.mp free), if_pos rfl]

/-- Different names are given meanings in any order, if one of them had one. -/
theorem setEntry_comm (distinct : name ≠ other) (there : (entries.lookup name).isSome)
    (node node' : Node) :
    (entries.setEntry name node).setEntry other node' =
      (entries.setEntry other node').setEntry name node := by
  have still : ((entries.setEntry other node').lookup name).isSome := by
    rwa [lookup_setEntry_of_ne distinct]
  have same : (entries.setEntry name node).lookup other = entries.lookup other :=
    lookup_setEntry_of_ne distinct.symm
  rw [setEntry.eq_1 (entries.setEntry other node') name, if_pos still,
    setEntry.eq_1 (entries.setEntry name node) other, same]
  rw [setEntry.eq_1 entries name, if_pos there, setEntry]
  split
  · rw [List.map_map, List.map_map]
    refine List.map_congr_left fun entry _ => ?_
    by_cases here : entry.1 = name
    · simp [here, distinct]
    · by_cases there : entry.1 = other
      · simp [there, distinct.symm]
      · simp [here, there]
  · rw [map_insertNew (keeps_name name node), if_neg distinct.symm]

end Entries

/-! ## Changing places twice -/

namespace Node

variable {tree : Node} {place other : Place}

/-- The second change of a place is the one that is seen. -/
theorem put_put (tree : Node) (place : Place) (node node' : Node) :
    (tree.put place node).put place node' = tree.put place node' := by
  induction place generalizing tree with
  | nil => simp only [put]
  | cons name rest ih =>
      cases tree with
      | file data => simp only [put]
      | link target => simp only [put]
      | dir entries =>
          cases found : entries.lookup name with
          | some child =>
              simp only [put, found, Entries.lookup_setEntry_self, ih,
                Entries.setEntry_setEntry]
          | none =>
              by_cases last : rest = []
              · subst last
                simp only [put, found, if_true, Entries.lookup_setEntry_self,
                  Entries.setEntry_setEntry]
              · simp only [put, found, if_neg last]

/-- Places apart are changed in any order, if something is at one of them. -/
theorem put_comm (there : tree.descend place ≠ none) (left : ¬ place <+: other)
    (right : ¬ other <+: place) (node node' : Node) :
    (tree.put place node).put other node' = (tree.put other node').put place node := by
  induction place generalizing tree other with
  | nil => exact absurd List.nil_prefix left
  | cons name rest ih =>
      obtain ⟨name', rest', rfl⟩ : ∃ name' rest', other = name' :: rest' :=
        List.exists_cons_of_ne_nil fun none => right (none ▸ List.nil_prefix)
      cases tree with
      | file data => simp [descend] at there
      | link target => simp [descend] at there
      | dir entries =>
          rw [descend_dir_cons] at there
          obtain ⟨child, found, inside⟩ : ∃ child, entries.lookup name = some child ∧
              child.descend rest ≠ none := by
            cases found : entries.lookup name with
            | none => simp [found] at there
            | some child => exact ⟨child, rfl, by simpa [found] using there⟩
          -- Either the places part here, or they have this name in common and part further down.
          by_cases same : name = name'
          · subst same
            have further := ih inside (by simpa using left) (by simpa using right)
            simp only [put, found, Entries.lookup_setEntry_self, further,
              Entries.setEntry_setEntry]
          · have isThere : (entries.lookup name).isSome := by rw [found]; rfl
            have kept : ∀ new, (Entries.setEntry entries name new).lookup name' =
                entries.lookup name' := fun new => Entries.lookup_setEntry_of_ne (Ne.symm same)
            have kept' : ∀ new, (Entries.setEntry entries name' new).lookup name = some child :=
              fun new => (Entries.lookup_setEntry_of_ne same).trans found
            cases found' : entries.lookup name' with
            | some child' =>
                simp only [put, found, kept, found', kept', Entries.setEntry_comm same isThere]
            | none =>
                by_cases last : rest' = []
                · simp only [put, found, kept, found', if_pos last, kept',
                    Entries.setEntry_comm same isThere]
                · simp only [put, found, kept, found', if_neg last]

end Node

namespace FileSystem

variable {files middle after later : FileSystem} {place other : Place} {data content : Bytes}
  {node node' : Node} {writes : List (Place × Bytes)}

theorem eq_of_dir_entries (same : Node.dir files.entries = Node.dir after.entries) :
    files = after := by
  cases files
  cases after
  exact congrArg FileSystem.mk (Node.dir.inj same)

theorem dir_entries_put (inner : place ≠ []) (files : FileSystem) (node : Node) :
    Node.dir (files.put place node).entries = (Node.dir files.entries).put place node := by
  obtain ⟨name, rest, rfl⟩ := List.exists_cons_of_ne_nil inner
  obtain ⟨entries, put_eq⟩ := Node.put_dir_cons files.entries name rest node
  rw [put, put_eq]

theorem put_put (inner : place ≠ []) (files : FileSystem) (node node' : Node) :
    (files.put place node).put place node' = files.put place node' := by
  apply eq_of_dir_entries
  rw [dir_entries_put inner, dir_entries_put inner, dir_entries_put inner, Node.put_put]

theorem put_comm (there : files.label? place ≠ none) (left : ¬ place <+: other)
    (right : ¬ other <+: place) (node node' : Node) :
    (files.put place node).put other node' = (files.put other node').put place node := by
  have inner : place ≠ [] := by
    rintro rfl
    exact left List.nil_prefix
  have inner' : other ≠ [] := by
    rintro rfl
    exact right List.nil_prefix
  apply eq_of_dir_entries
  rw [dir_entries_put inner', dir_entries_put inner, dir_entries_put inner,
    dir_entries_put inner']
  exact Node.put_comm (fun none => there (label?_eq_none_iff.mpr none)) left right node node'

/-! ## Files that are there -/

/-- There is a file at a place. -/
def HasFile (files : FileSystem) (place : Place) : Prop :=
  ∃ data, files.label? place = some (.file data)

/-- Writing `data` to a place would change nothing. -/
def IsWritten (files : FileSystem) (place : Place) (data : Bytes) : Prop :=
  files.put place (.file data) = files

namespace HasFile

theorem ne_nil (file : files.HasFile place) : place ≠ [] := by
  obtain ⟨data, shown⟩ := file
  exact ne_nil_of_label?_ne_dir (by rw [shown]; simp)

theorem isThere (file : files.HasFile place) : files.label? place ≠ none := by
  obtain ⟨data, shown⟩ := file
  simp [shown]

theorem mono (file : files.HasFile place) (keeps : files.Keeps after) : after.HasFile place := by
  obtain ⟨data, shown⟩ := file
  obtain ⟨label, shown', same⟩ := keeps place _ shown
  cases same with
  | file _ data' => exact ⟨data', shown'⟩

/-- Nothing is below a file. -/
theorem not_prefix (file : files.HasFile place) (there : files.label? other ≠ none)
    (distinct : place ≠ other) : ¬ place <+: other := by
  obtain ⟨data, shown⟩ := file
  rintro ⟨below, rfl⟩
  have lower : below ≠ [] := by
    rintro rfl
    exact distinct (List.append_nil place).symm
  exact there (label?_below_of_ne_dir (by rw [shown]; simp) lower)

/-- Writing over a file changes its content and nothing else. -/
theorem put_update (file : files.HasFile place) (data : Bytes) :
    (files.put place (.file data)).label? =
      Function.update files.label? place (some (.file data)) := by
  obtain ⟨parent, name, rfl⟩ := (List.eq_nil_or_concat place).resolve_left file.ne_nil
  obtain ⟨old, shown⟩ := file
  rw [List.concat_eq_append] at shown ⊢
  have home : files.label? parent = some .dir :=
    label?_dir_of_below (by rw [shown]; simp) (List.cons_ne_nil name [])
  exact label?_put_file home (by simp [shown]) data

theorem put_keeps (file : files.HasFile place) (data : Bytes) :
    files.Keeps (files.put place (.file data)) := by
  obtain ⟨old, shown⟩ := id file
  refine .of_update (file.put_update data) fun label shown' => ?_
  obtain rfl : Label.file old = label := by simpa [shown] using shown'
  exact .file old data

/-- Two files are written in any order. -/
theorem put_comm (file : files.HasFile place) (file' : files.HasFile other)
    (distinct : place ≠ other) (node node' : Node) :
    (files.put place node).put other node' = (files.put other node').put place node :=
  FileSystem.put_comm file.isThere (file.not_prefix file'.isThere distinct)
    (file'.not_prefix file.isThere distinct.symm) node node'

end HasFile

namespace IsWritten

theorem put_self (inner : place ≠ []) (files : FileSystem) (data : Bytes) :
    (files.put place (.file data)).IsWritten place data :=
  put_put inner files _ _

/-- A change that could have come first leaves written what was written. -/
theorem of_comm (written : files.IsWritten place data)
    (comm : (files.put place (.file data)).put other node =
      (files.put other node).put place (.file data)) :
    (files.put other node).IsWritten place data := by
  unfold IsWritten at written ⊢
  rw [← comm, written]

/-- A new directory leaves files written. -/
theorem createDir {path : PathText} (written : files.IsWritten place data)
    (file : files.HasFile place) (made : files.createDir path = .ok after) :
    after.IsWritten place data := by
  unfold FileSystem.createDir at made
  split at made
  · cases made
  · cases made
  · next parent name resolved =>
    obtain rfl := Except.ok.inj made
    obtain ⟨home, free⟩ := vacant_of_arrives (check_of_resolveNew resolved).2 (label?_nil files)
    refine written.of_comm (FileSystem.put_comm file.isThere ?_ ?_ _ _)
    -- neither is the file above the new directory, nor is it the new directory or below it
    · rw [List.prefix_concat_iff]
      rintro (rfl | above)
      · exact file.isThere free
      · refine file.not_prefix (by simp [home]) ?_ above
        rintro rfl
        obtain ⟨old, shown⟩ := file
        simp [home] at shown
    · rintro ⟨below, rfl⟩
      by_cases here : below = []
      · exact file.isThere (by rw [here, List.append_nil, free])
      · exact file.isThere (label?_below_of_ne_dir (by simp [free]) here)

end IsWritten

/-! ## Rows of writes -/

/-- Writes files at some places, one after the other. -/
def putFiles (files : FileSystem) : List (Place × Bytes) → FileSystem
  | [] => files
  | (place, data) :: rest => (files.put place (.file data)).putFiles rest

/-- **A write that a later one covers may be left out.** -/
theorem putFiles_covered (file : files.HasFile place)
    (all : ∀ write ∈ writes, files.HasFile write.1) (covered : place ∈ writes.map Prod.fst)
    (data : Bytes) : (files.put place (.file data)).putFiles writes = files.putFiles writes := by
  induction writes generalizing files with
  | nil => cases covered
  | cons write rest ih =>
      obtain ⟨other, content⟩ := write
      obtain ⟨first, others⟩ := List.forall_mem_cons.mp all
      rw [putFiles, putFiles]
      by_cases same : other = place
      · subst same
        rw [put_put file.ne_nil]
      · rw [file.put_comm first (Ne.symm same)]
        have keeps := first.put_keeps content
        refine ih (file.mono keeps) (fun write member => (others write member).mono keeps) ?_
        simpa [Ne.symm same] using covered

/-- What came of a row of writes is not changed by them.  Between the writes other things may
have been made, as long as what was written to other places stays. -/
structure Rewrites (before after : FileSystem) (writes : List (Place × Bytes)) : Prop where
  keeps : before.Keeps after
  file : ∀ write ∈ writes, after.HasFile write.1
  again : after.putFiles writes = after
  beside : ∀ place data, before.HasFile place → before.IsWritten place data →
    place ∉ writes.map Prod.fst → after.IsWritten place data

namespace Rewrites

theorem nil (files : FileSystem) : Rewrites files files [] where
  keeps := .refl files
  file := by simp
  again := rfl
  beside _ _ _ written _ := written

/-- Things that are no files do not count. -/
theorem of_kept (keeps : files.Keeps middle)
    (written : ∀ place data, files.HasFile place → files.IsWritten place data →
      middle.IsWritten place data)
    (rest : Rewrites middle after writes) : Rewrites files after writes where
  keeps := keeps.trans rest.keeps
  file := rest.file
  again := rest.again
  beside place data file was :=
    rest.beside place data (file.mono keeps) (written place data file was)

/-- **One write more, before the others.**  Either one of them covers it, or what it writes is
still there at the end. -/
theorem cons (file : (files.put place (.file data)).HasFile place)
    (keeps : files.Keeps (files.put place (.file data)))
    (rest : Rewrites (files.put place (.file data)) after writes) :
    Rewrites files after ((place, data) :: writes) where
  keeps := keeps.trans rest.keeps
  file := List.forall_mem_cons.mpr ⟨file.mono rest.keeps, rest.file⟩
  again := by
    rw [putFiles]
    by_cases covered : place ∈ writes.map Prod.fst
    · rw [putFiles_covered (file.mono rest.keeps) rest.file covered]
      exact rest.again
    · have written := rest.beside place data file (.put_self file.ne_nil files data) covered
      rw [written]
      exact rest.again
  beside other content file' written beside := by
    rw [List.map_cons, List.mem_cons, not_or] at beside
    have still := file'.mono keeps
    have comm := FileSystem.put_comm file'.isThere
      (still.not_prefix file.isThere beside.1) (file.not_prefix still.isThere (Ne.symm beside.1))
      (.file content) (.file data)
    exact rest.beside other content still (written.of_comm comm) beside.2

end Rewrites

end FileSystem

end FlatArchive
