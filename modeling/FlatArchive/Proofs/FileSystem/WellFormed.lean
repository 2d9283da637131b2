import FlatArchive.Proofs.FileSystem.Requests
import Mathlib.Data.List.Nodup

/-!
# Trees that there can be

A tree is well formed if no directory calls two things by one name, and everything has a
name that a path can lead to: not too long, with no slash or NUL in it, and neither of the
names that every directory has a meaning for.

The empty tree is well formed, and no request takes that away (`createDir_wellFormed`,
`writeFile_wellFormed`, `createLink_wellFormed`, `removeFile_wellFormed`): a new name is a
piece of a path, or of the target of a link, and the walk that ends at it has looked at its
length and found that it is not dots.
-/

namespace FlatArchive

open Relation Walk

/-- Everything below a node has a name of its own that a path can lead to. -/
inductive Node.WellFormed : Node → Prop
  | file {data : Bytes} : WellFormed (.file data)
  | link {target : PathText} (noNul : 0 ∉ target) : WellFormed (.link target)
  | dir {entries : Entries} (distinct : (entries.map Prod.fst).Nodup)
      (entry : ∀ item ∈ entries, Name.IsEntry item.1)
      (inner : ∀ item ∈ entries, WellFormed item.2) : WellFormed (.dir entries)

namespace Node.WellFormed

variable {name : Name} {node : Node} {rest : Entries}

theorem dir_nil : WellFormed (.dir []) :=
  .dir List.nodup_nil (by simp) (by simp)

/-- A directory is built up entry by entry, each under a name that the others do not have. -/
theorem dir_cons (fresh : name ∉ rest.map Prod.fst) (entry : name.IsEntry)
    (inner : node.WellFormed) (others : WellFormed (.dir rest)) :
    WellFormed (.dir ((name, node) :: rest)) := by
  cases others with
  | dir distinct entries inners =>
      exact .dir (List.nodup_cons.mpr ⟨fresh, distinct⟩)
        (List.forall_mem_cons.mpr ⟨entry, entries⟩) (List.forall_mem_cons.mpr ⟨inner, inners⟩)

theorem dir_singleton (entry : name.IsEntry) (inner : node.WellFormed) :
    WellFormed (.dir [(name, node)]) :=
  dir_cons List.not_mem_nil entry inner dir_nil

end Node.WellFormed

namespace Entries

variable {entries : Entries} {name : Name} {node : Node}

/-- The entries of a well-formed directory. -/
abbrev WellFormed (entries : Entries) : Prop :=
  (Node.dir entries).WellFormed

@[simp] theorem mem_inOrder {item : Name × Node} : item ∈ entries.inOrder ↔ item ∈ entries :=
  (List.mergeSort_perm _ _).mem_iff

/-- What is found under a name is an entry of that name. -/
theorem mem_of_lookup (found : entries.lookup name = some node) : (name, node) ∈ entries := by
  obtain ⟨front, back, rfl, -⟩ := List.lookup_eq_some_iff.mp found
  exact List.mem_append_right front List.mem_cons_self

namespace WellFormed

/-- No name is there twice. -/
theorem distinct (wellFormed : entries.WellFormed) : (entries.map Prod.fst).Nodup := by
  cases wellFormed with
  | dir distinct => exact distinct

/-- The names of entries are such as a directory can hold. -/
theorem entry (wellFormed : entries.WellFormed) (member : (name, node) ∈ entries) :
    name.IsEntry := by
  cases wellFormed with
  | dir _ entry => exact entry _ member

/-- What is in a well-formed directory is well-formed. -/
theorem inner (wellFormed : entries.WellFormed) (member : (name, node) ∈ entries) :
    node.WellFormed := by
  cases wellFormed with
  | dir _ _ inner => exact inner _ member

theorem tail {item : Name × Node} (wellFormed : Entries.WellFormed (item :: entries)) :
    entries.WellFormed :=
  .dir (List.nodup_cons.mp wellFormed.distinct).2
    (fun _ member => wellFormed.entry (List.mem_cons_of_mem _ member))
    (fun _ member => wellFormed.inner (List.mem_cons_of_mem _ member))

/-- It does not matter in which order entries are kept. -/
theorem perm {entries' : Entries} (wellFormed : entries.WellFormed)
    (permuted : entries.Perm entries') : entries'.WellFormed :=
  .dir ((permuted.map Prod.fst).nodup_iff.mp wellFormed.distinct)
    (fun _ member => wellFormed.entry (permuted.mem_iff.mpr member))
    (fun _ member => wellFormed.inner (permuted.mem_iff.mpr member))

theorem inOrder (wellFormed : entries.WellFormed) : entries.inOrder.WellFormed :=
  wellFormed.perm (List.mergeSort_perm _ _).symm

/-- An entry is found under its name, since no other has that name. -/
theorem lookup_iff (wellFormed : entries.WellFormed) :
    entries.lookup name = some node ↔ (name, node) ∈ entries := by
  refine ⟨mem_of_lookup, fun member => ?_⟩
  obtain ⟨front, back, rfl⟩ := List.append_of_mem member
  refine List.lookup_eq_some_iff.mpr ⟨front, back, rfl, fun item before => ?_⟩
  have distinct := wellFormed.distinct
  rw [List.map_append, List.nodup_append] at distinct
  have other := distinct.2.2 item.1 (List.mem_map_of_mem before) name (by simp)
  exact bne_iff_ne.mpr other.symm

end WellFormed

/-! ## Changing entries -/

/-- A new entry comes to the others, wherever it is put. -/
theorem insertNew_perm (name : Name) (node : Node) (entries : Entries) :
    (insertNew name node entries).Perm ((name, node) :: entries) := by
  induction entries with
  | nil => exact .refl _
  | cons entry rest ih =>
      rw [insertNew]
      split
      · exact .refl _
      · exact (ih.cons entry).trans (.swap _ _ _)

/-- A well-formed node under a name keeps a directory well-formed, whether it is new there or
replaces another one. -/
theorem WellFormed.setEntry (wellFormed : entries.WellFormed) (entry : name.IsEntry)
    (inner : node.WellFormed) : (entries.setEntry name node).WellFormed := by
  rw [Entries.setEntry]
  split
  · have names : (entries.map fun item => if item.1 = name then (name, node) else item).map
        Prod.fst = entries.map Prod.fst := by
      rw [List.map_map]
      refine List.map_congr_left fun item _ => ?_
      by_cases here : item.1 = name
      · simp [here]
      · simp [here]
    refine .dir (names ▸ wellFormed.distinct) (fun item member => ?_) fun item member => ?_
    · obtain ⟨old, before, rfl⟩ := List.mem_map.mp member
      split
      · exact entry
      · exact wellFormed.entry before
    · obtain ⟨old, before, rfl⟩ := List.mem_map.mp member
      split
      · exact inner
      · exact wellFormed.inner before
  · next absent =>
    rw [Option.not_isSome_iff_eq_none, List.lookup_eq_none_iff] at absent
    have fresh : name ∉ entries.map Prod.fst := by
      intro member
      obtain ⟨item, inside, same⟩ := List.mem_map.mp member
      have other := absent item inside
      simp [same] at other
    exact WellFormed.perm (.dir_cons fresh entry inner wellFormed)
      (insertNew_perm name node entries).symm

/-- A directory stays well-formed if an entry goes. -/
theorem WellFormed.eraseEntry (wellFormed : entries.WellFormed) (name : Name) :
    (entries.eraseEntry name).WellFormed :=
  .dir (wellFormed.distinct.sublist (List.filter_sublist.map Prod.fst))
    (fun _ member => wellFormed.entry (List.mem_filter.mp member).1)
    (fun _ member => wellFormed.inner (List.mem_filter.mp member).1)

end Entries

namespace Node

variable {node new : Node} {place : Place}

/-- The first step down is an entry. -/
theorem exists_of_descend {entries : Entries} {name : Name} {rest : Place}
    (found : (Node.dir entries).descend (name :: rest) = some node) :
    ∃ child, (name, child) ∈ entries ∧ child.descend rest = some node := by
  rw [descend_dir_cons] at found
  obtain ⟨child, there, found⟩ := Option.bind_eq_some_iff.mp found
  exact ⟨child, Entries.mem_of_lookup there, found⟩

/-- What is below a well-formed node is well-formed. -/
theorem WellFormed.descend (wellFormed : node.WellFormed) {lower : Node}
    (found : node.descend place = some lower) : lower.WellFormed := by
  induction place generalizing node with
  | nil =>
      obtain rfl : node = lower := by simpa using found
      exact wellFormed
  | cons name rest ih =>
      cases node with
      | file data => simp [Node.descend] at found
      | link target => simp [Node.descend] at found
      | dir entries =>
          obtain ⟨child, member, found⟩ := exists_of_descend found
          exact ih (Entries.WellFormed.inner wellFormed member) found

/-- All that leads to something has the names of entries. -/
theorem WellFormed.isEntry_of_descend (wellFormed : node.WellFormed) {lower : Node}
    (found : node.descend place = some lower) : ∀ name ∈ place, name.IsEntry := by
  induction place generalizing node with
  | nil => simp
  | cons name rest ih =>
      cases node with
      | file data => simp [Node.descend] at found
      | link target => simp [Node.descend] at found
      | dir entries =>
          obtain ⟨child, member, found⟩ := exists_of_descend found
          exact List.forall_mem_cons.mpr ⟨Entries.WellFormed.entry wellFormed member,
            ih (Entries.WellFormed.inner wellFormed member) found⟩

/-- A well-formed node can be put anywhere under a name that a directory can hold. -/
theorem WellFormed.put (wellFormed : node.WellFormed) (inner : new.WellFormed)
    (entry : ∀ name, place.getLast? = some name → name.IsEntry) :
    (node.put place new).WellFormed := by
  fun_induction Node.put node place new with
  | case1 => exact inner
  | case2 entries name rest new child there ih =>
      have inside := Entries.mem_of_lookup there
      have last : ∀ other, rest.getLast? = some other → other.IsEntry := by
        intro other ends
        exact entry other (by rw [List.getLast?_cons, ends, Option.getD_some])
      exact Entries.WellFormed.setEntry wellFormed (Entries.WellFormed.entry wellFormed inside)
        (ih (Entries.WellFormed.inner wellFormed inside) inner last)
  | case3 entries name new absent =>
      exact Entries.WellFormed.setEntry wellFormed (entry name rfl) inner
  | case4 => exact wellFormed
  | case5 => exact wellFormed

/-- A node stays well-formed if something below it goes. -/
theorem WellFormed.remove (wellFormed : node.WellFormed) (place : Place) :
    (node.remove place).WellFormed := by
  fun_induction Node.remove node place with
  | case1 entries name => exact Entries.WellFormed.eraseEntry wellFormed name
  | case2 entries name rest other child there ih =>
      have inside := Entries.mem_of_lookup there
      exact Entries.WellFormed.setEntry wellFormed (Entries.WellFormed.entry wellFormed inside)
        (ih (Entries.WellFormed.inner wellFormed inside))
  | case3 => exact wellFormed
  | case4 => exact wellFormed

end Node

namespace FileSystem

variable {files after : FileSystem} {mode : Mode} {path target : PathText} {place : Place}
  {name : Name} {node : Node} {data : Bytes}

/-- A tree that there can be. -/
def WellFormed (files : FileSystem) : Prop :=
  (Node.dir files.entries).WellFormed

theorem wellFormed_empty : WellFormed {} :=
  .dir_nil

namespace WellFormed

/-- What is at a place of a well-formed tree is well-formed. -/
theorem of_node? (wellFormed : files.WellFormed) (found : files.node? place = some node) :
    node.WellFormed :=
  Node.WellFormed.descend wellFormed found

/-- What is there has a name. -/
theorem isEntry_of_node? (wellFormed : files.WellFormed) {parent : Place}
    (found : files.node? (parent ++ [name]) = some node) : name.IsEntry :=
  Node.WellFormed.isEntry_of_descend wellFormed found name
    (List.mem_append_right _ List.mem_cons_self)

/-- A well-formed tree stays so if a well-formed node is put into it. -/
theorem put (wellFormed : files.WellFormed) (inner : node.WellFormed)
    (entry : ∀ name, place.getLast? = some name → name.IsEntry) :
    (files.put place node).WellFormed := by
  have whole := Node.WellFormed.put wellFormed inner entry
  unfold FileSystem.put
  split
  · next same => rwa [same] at whole
  · exact wellFormed

theorem remove (wellFormed : files.WellFormed) (place : Place) :
    (files.remove place).WellFormed := by
  have whole := Node.WellFormed.remove wellFormed place
  unfold FileSystem.remove
  split
  · next same => rwa [same] at whole
  · exact wellFormed

/-! ## Requests -/

/-- **Where a walk finds a place for something new, a directory can hold its name**: the name
is a piece of a path or of the target of a link, and was checked for its length. -/
theorem isEntry_of_vacant (wellFormed : files.WellFormed) {walk : Walk} {parent : Place}
    (arrives : Arrives files mode walk (.ok (.vacant parent name)))
    (clean : ∀ piece ∈ walk.pieces, Name.IsPiece piece ∧ 0 ∉ piece) : name.IsEntry := by
  obtain ⟨last, steps, ends⟩ := arrives
  induction steps using ReflTransGen.head_induction_on with
  | refl =>
      cases ends with
      | vacant look =>
          obtain ⟨piece, noNul⟩ := clean name List.mem_cons_self
          exact ⟨⟨piece, look.ne_dot, look.ne_dotDot⟩, noNul, look.short⟩
  | head step _ ih =>
      have rest : ∀ {front piece : Name} {others : List Name}, piece ∈ others →
          (∀ piece ∈ front :: others, Name.IsPiece piece ∧ 0 ∉ piece) →
          Name.IsPiece piece ∧ 0 ∉ piece := fun member clean =>
        clean _ (List.mem_cons_of_mem _ member)
      cases step with
      | dot => exact ih fun piece member => rest member clean
      | dotDot => exact ih fun piece member => rest member clean
      | enter => exact ih fun piece member => rest member clean
      | follow _ here =>
          refine ih fun piece member => ?_
          rcases List.mem_append.mp member with inside | behind
          · have link := wellFormed.of_node? (label?_eq_link_iff.mp here)
            cases link with
            | link noNul =>
                exact ⟨PathText.isPiece_of_mem_pieces inside, fun nul =>
                  noNul (PathText.mem_of_mem_pieces inside nul)⟩
          · exact rest behind clean

/-- The name of something new, if a path has led to it, is one that a directory can hold. -/
theorem isEntry_of_path (wellFormed : files.WellFormed) (check : checkPath path = .ok ())
    {slashed : Bool} {parent : Place}
    (arrives : Arrives files mode ⟨linkLimit, slashed, [], path.pieces⟩
      (.ok (.vacant parent name))) : name.IsEntry := by
  obtain ⟨noNul, -, -⟩ := checkPath_eq_ok_iff.mp check
  exact wellFormed.isEntry_of_vacant arrives fun piece member =>
    ⟨PathText.isPiece_of_mem_pieces member, fun nul =>
      noNul (PathText.mem_of_mem_pieces member nul)⟩

/-- A well-formed tree stays so if a well-formed node is put into a directory under a name that it
can hold. -/
theorem put_concat (wellFormed : files.WellFormed) (inner : node.WellFormed)
    (entry : name.IsEntry) (parent : Place) :
    (files.put (parent ++ [name]) node).WellFormed := by
  refine wellFormed.put inner fun other last => ?_
  obtain rfl : name = other := by simpa using last
  exact entry

end WellFormed

/-- Making a directory leaves a tree well formed. -/
theorem createDir_wellFormed (wellFormed : files.WellFormed)
    (made : files.createDir path = .ok after) : after.WellFormed := by
  unfold createDir at made
  split at made
  · cases made
  · cases made
  · next parent name resolved =>
    obtain rfl := Except.ok.inj made
    obtain ⟨check, arrives⟩ := check_of_resolveNew resolved
    exact wellFormed.put_concat wellFormed_empty (wellFormed.isEntry_of_path check arrives) parent

/-- Writing a file leaves a tree well formed. -/
theorem writeFile_wellFormed (wellFormed : files.WellFormed)
    (written : files.writeFile path data = .ok after) : after.WellFormed := by
  unfold writeFile at written
  split at written
  · cases written
  · next parent name resolved =>
    obtain rfl := Except.ok.inj written
    obtain ⟨check, arrives⟩ := check_of_resolve resolved
    exact wellFormed.put_concat .file (wellFormed.isEntry_of_path check arrives) parent
  · next place resolved =>
    split at written
    · next old found =>
      obtain rfl := Except.ok.inj written
      refine wellFormed.put .file fun name last => ?_
      obtain ⟨parent, rfl⟩ := List.getLast?_eq_some_iff.mp last
      exact wellFormed.isEntry_of_node? found
    · cases written

/-- Making a link leaves a tree well formed. -/
theorem createLink_wellFormed (wellFormed : files.WellFormed)
    (made : files.createLink path target = .ok after) : after.WellFormed := by
  unfold createLink at made
  split at made
  · cases made
  · cases made
  · cases made
  · next parent name resolved checked =>
    split at made
    · cases made
    · obtain rfl := Except.ok.inj made
      obtain ⟨check, arrives⟩ := check_of_resolveNew resolved
      have noNul : 0 ∉ target := by
        cases targetChecked : checkPath target with
        | error e => exact (checked e targetChecked).elim
        | ok => exact (checkPath_eq_ok_iff.mp targetChecked).1
      exact wellFormed.put_concat (.link noNul) (wellFormed.isEntry_of_path check arrives) parent

/-- Taking a file away leaves a tree well formed. -/
theorem removeFile_wellFormed (wellFormed : files.WellFormed)
    (removed : files.removeFile path = .ok after) : after.WellFormed := by
  unfold removeFile at removed
  rcases looked : files.lstat path with e | ⟨place, node, found⟩
  · simp [looked] at removed
  · cases node with
    | dir entries => simp [looked] at removed
    | file | link =>
        obtain rfl : files.remove place = after := by simpa [looked] using removed
        exact wellFormed.remove place

end FileSystem

end FlatArchive
