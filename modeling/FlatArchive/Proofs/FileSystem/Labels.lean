import FlatArchive.FileSystem.Node
import Mathlib.Logic.Function.Basic

/-!
# A tree as a function of places

Two trees look alike if the same is shown at every place, and what is shown there is
the label of a node: a file with its content, a link with its target, or a directory.
What is below a directory is not part of its label, since it shows at places of its own.

Whatever changes a tree can then be said as a change of one function from places to
labels.  The two changes that are made to trees, a new file or an empty directory where
there was nothing or a file, are each the update of that function at one place
(`label?_put`).
-/

namespace FlatArchive

/-- What a node shows of itself. -/
inductive Label
  | file (data : Bytes)
  | link (target : PathText)
  | dir
  deriving DecidableEq, Repr

namespace Node

/-- What a node shows of itself. -/
def label : Node → Label
  | .file data => .file data
  | .link target => .link target
  | .dir _ => .dir

/-- A file is all in its label, as a link is. -/
theorem label_eq_file_iff {node : Node} {data : Bytes} :
    node.label = .file data ↔ node = .file data := by
  cases node <;> simp [label]

theorem label_eq_link_iff {node : Node} {target : PathText} :
    node.label = .link target ↔ node = .link target := by
  cases node <;> simp [label]

/-- The label of a directory does not tell what is in there. -/
theorem label_eq_dir_iff {node : Node} : node.label = .dir ↔ ∃ entries, node = .dir entries := by
  cases node <;> simp [label]

/-! ## Going down -/

@[simp] theorem descend_nil (node : Node) : node.descend [] = some node := by
  unfold descend
  rfl

/-- From a directory the way goes on under the first of the names. -/
@[simp] theorem descend_dir_cons (entries : Entries) (name : Name) (rest : Place) :
    (Node.dir entries).descend (name :: rest) =
      (entries.lookup name).bind fun node => node.descend rest := by
  rw [descend]

/-- To go down in two parts is to go down at once. -/
theorem descend_append (node : Node) (upper lower : Place) :
    node.descend (upper ++ lower) = (node.descend upper).bind fun node => node.descend lower := by
  induction upper generalizing node with
  | nil => simp
  | cons name rest ih =>
      cases node with
      | file data => simp [descend]
      | link target => simp [descend]
      | dir entries =>
          rw [List.cons_append, descend_dir_cons, descend_dir_cons, Option.bind_assoc]
          exact congrArg _ (funext fun child => ih child)

/-! ## Changing one place -/

/-- A change below a directory leaves a directory. -/
theorem put_dir_cons (entries : Entries) (name : Name) (rest : Place) (new : Node) :
    ∃ after, (Node.dir entries).put (name :: rest) new = .dir after := by
  rw [put]
  split
  · exact ⟨_, rfl⟩
  · split
    · exact ⟨_, rfl⟩
    · exact ⟨_, rfl⟩

/-- A place that does not lie at or below the change shows what it showed. -/
theorem label_put_elsewhere (node : Node) (place : Place) (new : Node) {other : Place}
    (apart : ¬ place <+: other) :
    ((node.put place new).descend other).map label = (node.descend other).map label := by
  induction place generalizing node other with
  | nil => exact absurd List.nil_prefix apart
  | cons name rest ih =>
      cases node with
      | file data => rw [put]; simp
      | link target => rw [put]; simp
      | dir entries =>
          cases other with
          | nil =>
              obtain ⟨after, put_eq⟩ := put_dir_cons entries name rest new
              rw [put_eq, descend_nil, descend_nil]
              rfl
          | cons head tail =>
              rw [put]
              by_cases same : head = name
              · subst same
                have below : ¬ rest <+: tail := by
                  simpa using apart
                cases found : entries.lookup head with
                | some child =>
                    simp only [descend_dir_cons, Entries.lookup_setEntry_self, found,
                      Option.bind_some]
                    exact ih child below
                | none =>
                    -- Nothing is put below a name that is not there.
                    have more : rest ≠ [] := by
                      rintro rfl
                      exact below List.nil_prefix
                    simp only [if_neg more]
              · cases entries.lookup name with
                | some child =>
                    simp only [descend_dir_cons, Entries.lookup_setEntry_of_ne same]
                | none =>
                    by_cases last : rest = []
                    · simp only [if_pos last, descend_dir_cons,
                        Entries.lookup_setEntry_of_ne same]
                    · simp only [if_neg last]

/-- At and below a change there is what was put there. -/
theorem descend_put_append {node : Node} {parent : Place} {entries : Entries}
    (home : node.descend parent = some (.dir entries)) (name : Name) (new : Node)
    (below : Place) :
    (node.put (parent ++ [name]) new).descend (parent ++ [name] ++ below) =
      new.descend below := by
  induction parent generalizing node with
  | nil =>
      obtain rfl : node = .dir entries := by simpa using home
      rw [List.nil_append, put]
      cases entries.lookup name with
      | some child => simp [put, Entries.lookup_setEntry_self]
      | none => simp [Entries.lookup_setEntry_self]
  | cons head tail ih =>
      cases node with
      | file data => simp [descend] at home
      | link target => simp [descend] at home
      | dir upper =>
          rw [descend_dir_cons] at home
          obtain ⟨child, found, home⟩ := Option.bind_eq_some_iff.mp home
          rw [List.cons_append, put, found]
          simp only [List.cons_append, descend_dir_cons, Entries.lookup_setEntry_self,
            Option.bind_some]
          exact ih home

end Node

namespace FileSystem

variable {files : FileSystem} {place parent below : Place} {name : Name}

/-- What a place shows. -/
def label? (files : FileSystem) (place : Place) : Option Label :=
  (files.node? place).map Node.label

@[simp] theorem label?_nil (files : FileSystem) : files.label? [] = some .dir := by
  simp [label?, node?, Node.label]

/-- What is at a place below another one is below what is there. -/
theorem node?_append (files : FileSystem) (place below : Place) :
    files.node? (place ++ below) =
      (files.node? place).bind fun node => node.descend below :=
  Node.descend_append _ _ _

theorem label?_eq_file_iff {data : Bytes} :
    files.label? place = some (.file data) ↔ files.node? place = some (.file data) := by
  simp [label?, Node.label_eq_file_iff]

theorem label?_eq_link_iff {target : PathText} :
    files.label? place = some (.link target) ↔ files.node? place = some (.link target) := by
  simp [label?, Node.label_eq_link_iff]

/-- A place shows a directory if one is there, with whatever entries. -/
theorem label?_eq_dir_iff :
    files.label? place = some .dir ↔ ∃ entries, files.node? place = some (.dir entries) := by
  simp only [label?, Option.map_eq_some_iff, Node.label_eq_dir_iff]
  constructor
  · rintro ⟨_, found, entries, rfl⟩
    exact ⟨entries, found⟩
  · rintro ⟨entries, found⟩
    exact ⟨_, found, entries, rfl⟩

/-- A place shows nothing if nothing is there. -/
theorem label?_eq_none_iff : files.label? place = none ↔ files.node? place = none := by
  simp [label?]

/-- Only a directory has anything below it. -/
theorem label?_dir_of_below (shown : files.label? (place ++ below) ≠ none) (lower : below ≠ []) :
    files.label? place = some .dir := by
  obtain ⟨name, rest, rfl⟩ := List.exists_cons_of_ne_nil lower
  rw [Ne, label?_eq_none_iff, node?_append] at shown
  cases found : files.node? place with
  | none => simp [found] at shown
  | some node =>
      cases node with
      | file data => simp [found, Node.descend] at shown
      | link target => simp [found, Node.descend] at shown
      | dir entries => exact label?_eq_dir_iff.mpr ⟨entries, found⟩

/-- Below a file, a link or nothing there is nothing. -/
theorem label?_below_of_ne_dir (other : files.label? place ≠ some .dir) (lower : below ≠ []) :
    files.label? (place ++ below) = none := by
  by_contra shown
  exact other (label?_dir_of_below shown lower)

/-- The place above a directory is a directory, and so is the topmost place. -/
theorem label?_dropLast (shown : files.label? place = some .dir) :
    files.label? place.dropLast = some .dir := by
  rcases List.eq_nil_or_concat place with rfl | ⟨upper, name, rfl⟩
  · simp
  · rw [List.concat_eq_append] at shown ⊢
    rw [List.dropLast_concat]
    exact label?_dir_of_below (by simp [shown]) (List.cons_ne_nil name [])

/-! ## Changing one place -/

/-- A change at any place but the topmost one is a change below a directory. -/
theorem node?_put_of_ne_nil (files : FileSystem) (node : Node) (other : Place)
    (inner : place ≠ []) :
    (files.put place node).node? other =
      ((Node.dir files.entries).put place node).descend other := by
  obtain ⟨name, rest, rfl⟩ := List.exists_cons_of_ne_nil inner
  obtain ⟨after, put_eq⟩ := Node.put_dir_cons files.entries name rest node
  rw [put, put_eq]
  rfl

/-- A place that is neither changed nor below the change shows what it showed. -/
theorem label?_put_elsewhere (files : FileSystem) (node : Node) {other : Place}
    (apart : ¬ place <+: other) :
    (files.put place node).label? other = files.label? other := by
  have inner : place ≠ [] := by
    rintro rfl
    exact apart List.nil_prefix
  rw [label?, node?_put_of_ne_nil files node other inner]
  exact Node.label_put_elsewhere _ _ _ apart

/-- **A node with nothing below it, put where no directory was, changes what one place
shows.** -/
theorem label?_put {node : Node} (home : files.label? parent = some .dir)
    (free : files.label? (parent ++ [name]) ≠ some .dir)
    (bare : ∀ head tail, node.descend (head :: tail) = none) :
    (files.put (parent ++ [name]) node).label? =
      Function.update files.label? (parent ++ [name]) (some node.label) := by
  obtain ⟨entries, home⟩ := label?_eq_dir_iff.mp home
  funext other
  by_cases inside : parent ++ [name] <+: other
  · obtain ⟨below, rfl⟩ := inside
    rw [label?, node?_put_of_ne_nil files node _ (by simp), Node.descend_put_append home]
    cases below with
    | nil => simp
    | cons head tail =>
        rw [bare, Option.map_none, Function.update_of_ne (by simp),
          label?_below_of_ne_dir free (by simp)]
  · rw [label?_put_elsewhere files node inside, Function.update_of_ne]
    rintro rfl
    exact inside (List.prefix_refl _)

/-- A file that is put where no directory was changes what one place shows. -/
theorem label?_put_file (home : files.label? parent = some .dir)
    (free : files.label? (parent ++ [name]) ≠ some .dir) (data : Bytes) :
    (files.put (parent ++ [name]) (.file data)).label? =
      Function.update files.label? (parent ++ [name]) (some (.file data)) :=
  label?_put home free fun head tail => by simp [Node.descend]

theorem label?_put_dir (home : files.label? parent = some .dir)
    (free : files.label? (parent ++ [name]) ≠ some .dir) :
    (files.put (parent ++ [name]) (.dir [])).label? =
      Function.update files.label? (parent ++ [name]) (some .dir) :=
  label?_put home free fun head tail => by simp

end FileSystem

end FlatArchive
