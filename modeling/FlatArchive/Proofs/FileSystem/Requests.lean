import FlatArchive.FileSystem.Operations
import FlatArchive.Proofs.FileSystem.Leading

/-!
# What comes of a request

First, for every request that a tree grants, what is different afterwards: one place shows
something else, and it showed nothing or a file before (`createDir_update`,
`writeFile_update`).

Then, for a path whose pieces lead to a directory up to the last one, what the request
comes to: that depends on what the directory has under the last name, and on nothing
else.
-/

namespace FlatArchive

open Relation Walk

/-- The place that a walk ends at, whether or not anything is there. -/
def Target.place : Target → Place
  | .found place => place
  | .vacant parent name => parent ++ [name]

namespace FileSystem

variable {files after : FileSystem} {mode : Mode} {path : PathText} {place home parent : Place}
  {upper rest : List Name} {name : Name} {data : Bytes}

/-! ## Where walks end -/

/-- A walk that finds nothing has come to a directory that has nothing under the last name. -/
theorem vacant_of_arrives {walk : Walk}
    (arrives : Arrives files mode walk (.ok (.vacant parent name)))
    (here : files.label? walk.place = some .dir) :
    files.label? parent = some .dir ∧ files.label? (parent ++ [name]) = none := by
  obtain ⟨last, steps, ends⟩ := arrives
  have reached := label?_place_of_steps steps here
  cases ends with
  | vacant _ free => exact ⟨reached, free⟩

/-- A walk that never meets a link or dots ends where its pieces say. -/
theorem place_of_arrives {walk : Walk} {target : Target}
    (arrives : Arrives files mode walk (.ok target))
    (plain : ∀ piece ∈ walk.pieces, Name.IsPlain piece)
    (clear : ∀ front, front <+: walk.place ++ walk.pieces →
      ∀ text, files.label? front ≠ some (.link text)) :
    target.place = walk.place ++ walk.pieces := by
  obtain ⟨last, steps, ends⟩ := arrives
  induction steps using ReflTransGen.head_induction_on with
  | refl =>
      cases ends with
      | arrived => simp [Target.place]
      | vacant => rfl
      | file => rfl
      | kept => rfl
  | head step _ ih =>
      cases step with
      | dot => exact absurd rfl (plain _ List.mem_cons_self).ne_dot
      | dotDot => exact absurd rfl (plain _ List.mem_cons_self).ne_dotDot
      | enter _ _ =>
          rw [List.append_cons]
          refine ih (fun piece member => plain piece (List.mem_cons_of_mem _ member)) ?_
          rwa [List.append_cons] at clear
      | follow _ here => exact absurd here (clear _ ⟨_, (List.append_cons _ _ _).symm⟩ _)

/-! ## What a granted request changes -/

theorem ne_nil_of_label?_ne_dir (other : files.label? place ≠ some .dir) : place ≠ [] := by
  rintro rfl
  exact other (label?_nil files)

/-- Making a directory changes what one place shows, where nothing was. -/
theorem createDir_update (made : files.createDir path = .ok after) :
    ∃ parent name, files.resolveNew path = .ok (.vacant parent name) ∧
      files.label? (parent ++ [name]) = none ∧
      after.label? = Function.update files.label? (parent ++ [name]) (some .dir) := by
  unfold createDir at made
  split at made
  · cases made
  · cases made
  · next parent name resolved =>
    obtain rfl := Except.ok.inj made
    obtain ⟨home, free⟩ :=
      vacant_of_arrives (check_of_resolveNew resolved).2 (label?_nil files)
    exact ⟨parent, name, resolved, free, label?_put_dir home (by simp [free])⟩

/-- Writing a file changes what one place shows, where nothing was or a file. -/
theorem writeFile_update (written : files.writeFile path data = .ok after) :
    ∃ target, files.resolve .create path = .ok target ∧
      (files.label? target.place = none ∨
        ∃ old, files.label? target.place = some (.file old)) ∧
      after.label? = Function.update files.label? target.place (some (.file data)) := by
  unfold writeFile at written
  split at written
  · cases written
  · next parent name resolved =>
    obtain rfl := Except.ok.inj written
    obtain ⟨home, free⟩ := vacant_of_arrives (check_of_resolve resolved).2 (label?_nil files)
    exact ⟨_, resolved, .inl free, label?_put_file home (by simp [free]) data⟩
  · next place resolved =>
    split at written
    · next old found =>
      obtain rfl := Except.ok.inj written
      have shown := label?_eq_file_iff.mpr found
      have other : files.label? place ≠ some .dir := by simp [shown]
      obtain ⟨parent, name, rfl⟩ := (List.eq_nil_or_concat place).resolve_left
        (ne_nil_of_label?_ne_dir other)
      rw [List.concat_eq_append] at *
      have home : files.label? parent = some .dir :=
        label?_dir_of_below (by rw [shown]; simp) (List.cons_ne_nil name [])
      exact ⟨_, resolved, .inr ⟨old, shown⟩, label?_put_file home (by simp [shown]) data⟩
    · cases written

/-- The file that is written is put where the path leads. -/
theorem writeFile_eq_put (written : files.writeFile path data = .ok after) :
    ∃ target, files.resolve .create path = .ok target ∧
      after = files.put target.place (.file data) := by
  unfold writeFile at written
  split at written
  · cases written
  · next parent name resolved => exact ⟨_, resolved, (Except.ok.inj written).symm⟩
  · next place resolved =>
    split at written
    · exact ⟨_, resolved, (Except.ok.inj written).symm⟩
    · cases written

theorem createDir_keeps (made : files.createDir path = .ok after) : files.Keeps after := by
  obtain ⟨parent, name, -, free, update⟩ := createDir_update made
  exact .of_update update fun old shown => by simp [free] at shown

theorem writeFile_keeps (written : files.writeFile path data = .ok after) :
    files.Keeps after := by
  obtain ⟨target, -, before, update⟩ := writeFile_update written
  refine .of_update update fun old shown => ?_
  rcases before with free | ⟨content, here⟩
  · simp [free] at shown
  · obtain rfl : Label.file content = old := by simpa [here] using shown
    exact .file content data

/-- Whether a file can be written does not depend on its content. -/
theorem writeFile_other (written : files.writeFile path data = .ok after) (other : Bytes) :
    ∃ after', files.writeFile path other = .ok after' := by
  unfold writeFile at written
  split at written
  · cases written
  · next parent name resolved => exact ⟨_, by rw [writeFile, resolved]⟩
  · next place resolved =>
    split at written
    · next old found =>
      refine ⟨files.put place (.file other), ?_⟩
      rw [writeFile, resolved]
      simp only [found]
    · cases written

/-- Nor does why it cannot be written. -/
theorem writeFile_error_iff {e : FileError} (data other : Bytes) :
    files.writeFile path data = .error e ↔ files.writeFile path other = .error e := by
  unfold writeFile
  split
  · exact Iff.rfl
  · simp
  · split
    · simp
    · exact Iff.rfl

/-! ## Looking at what is there -/

theorem look_of_resolve {node : Node} (resolved : files.resolve mode path = .ok (.found place))
    (found : files.node? place = some node) :
    files.look mode path = .ok ⟨place, node, found⟩ := by
  unfold look
  simp only [resolved]
  split
  · next absent => simp [found] at absent
  · next node' found' same =>
    obtain rfl : node = node' := by
      rw [found] at found'
      exact Option.some.inj found'
    rfl

theorem resolve_of_look {found : files.Found} (looked : files.look mode path = .ok found) :
    files.resolve mode path = .ok (.found found.place) := by
  unfold look at looked
  split at looked
  · cases looked
  · cases looked
  · next resolved =>
    split at looked
    · cases looked
    · obtain rfl := Except.ok.inj looked
      exact resolved

/-- What is not a link is seen whether links are followed or not. -/
theorem stat_of_lstat {found : files.Found} (looked : files.lstat path = .ok found)
    (other : ∀ target, found.node ≠ .link target) : files.stat path = .ok found := by
  obtain ⟨check, last, steps, ends⟩ := check_of_resolve (resolve_of_look looked)
  have onward : ReflTransGen (Step files .follow)
      ⟨linkLimit, path.endsInSlash, [], path.pieces⟩ last :=
    steps.lift id fun _ _ step => step.toFollow
  have resolved : files.resolve .follow path = .ok (.found found.place) := by
    refine resolve_of_check check ⟨last, onward, ?_⟩
    generalize place_eq : found.place = place at ends
    cases ends with
    | arrived => exact .arrived
    | file look here => exact .file (look.within (by simp)) here
    | @kept _ _ _ target _ here =>
        rw [← place_eq, label?_eq_link_iff, found.node?_place] at here
        exact absurd (Option.some.inj here) (other target)
  exact look_of_resolve resolved found.node?_place

/-- Pieces lead to the directory that their path leads to. -/
theorem leadsTo_of_resolve (resolved : files.resolve mode path = .ok (.found home))
    (here : files.label? home = some .dir) : files.LeadsTo path.pieces home := by
  obtain ⟨last, steps, ends⟩ := (check_of_resolve resolved).2
  have onward := steps_toDirectory steps
  cases ends with
  | arrived => exact ⟨_, onward⟩
  | file _ shown => simp [here] at shown
  | kept _ shown => simp [here] at shown

/-- A walk that follows links takes the same steps with a slash behind its pieces and without. -/
theorem steps_follow {walk last : Walk} (steps : ReflTransGen (Step files .follow) walk last)
    (slashed : Bool) :
    ∃ slashed', ReflTransGen (Step files .follow)
      ⟨walk.links, slashed, walk.place, walk.pieces⟩
      ⟨last.links, slashed', last.place, last.pieces⟩ := by
  induction steps with
  | refl => exact ⟨slashed, .refl⟩
  | tail _ step ih =>
      obtain ⟨slashed', steps⟩ := ih
      cases step with
      | dot => exact ⟨slashed', steps.tail .dot⟩
      | dotDot => exact ⟨slashed', steps.tail .dotDot⟩
      | enter look here =>
          exact ⟨slashed', steps.tail (.enter (look.within (by simp)) here)⟩
      | follow look here _ nonempty =>
          exact ⟨_, steps.tail (.follow (look.within (by simp)) here (by simp) nonempty)⟩

theorem resolve_of_leadsTo (check : checkPath path = .ok ())
    (leads : files.LeadsTo path.pieces home) : files.resolve .follow path = .ok (.found home) := by
  obtain ⟨left, steps⟩ := leads
  obtain ⟨slashed', steps⟩ := steps_follow steps path.endsInSlash
  exact resolve_of_check check ⟨_, steps, .arrived⟩

/-- There is a directory behind a path if and only if the path is accepted and its pieces lead to
one. -/
theorem isDir_iff :
    files.isDir path = true ↔
      checkPath path = .ok () ∧ ∃ home, files.LeadsTo path.pieces home := by
  constructor
  · intro holds
    unfold isDir at holds
    split at holds
    · next place entries found looked =>
      have resolved := resolve_of_look looked
      have here : files.label? place = some .dir := label?_eq_dir_iff.mpr ⟨entries, found⟩
      exact ⟨(check_of_resolve resolved).1, place, leadsTo_of_resolve resolved here⟩
    · cases holds
  · rintro ⟨check, home, leads⟩
    obtain ⟨entries, found⟩ := label?_eq_dir_iff.mp leads.label?_home
    have looked := look_of_resolve (resolve_of_leadsTo check leads) found
    unfold isDir stat
    rw [looked]

/-! ## A name in a directory -/

section Last

variable (cut : path.pieces = upper ++ [name]) (leads : files.LeadsTo upper home)
  (plain : name.IsPlain)

include cut leads plain

/-- Where nothing is, a directory can be made, and is then all that is new. -/
theorem createDir_of_vacant (check : checkPath path = .ok ()) (short : name.length ≤ nameLimit)
    (free : files.label? (home ++ [name]) = none) :
    ∃ after, files.createDir path = .ok after ∧
      after.label? = Function.update files.label? (home ++ [name]) (some .dir) := by
  obtain ⟨left, onward⟩ := leads.arrives .keep false (List.cons_ne_nil name [])
  have look : Mode.LooksUp .keep false name [] := .of_plain plain short (by simp)
  have resolved : files.resolveNew path = .ok (.vacant home name) := by
    refine resolveNew_of_check check ?_
    rw [cut]
    exact onward _ (Ends.vacant look free).arrives
  refine ⟨files.put (home ++ [name]) (.dir []), ?_,
    label?_put_dir leads.label?_home (by simp [free])⟩
  rw [createDir, resolved]

/-- A name that is taken is found, whatever it stands for. -/
theorem resolveNew_of_taken (check : checkPath path = .ok ()) (short : name.length ≤ nameLimit)
    (taken : files.label? (home ++ [name]) ≠ none) :
    files.resolveNew path = .ok (.found (home ++ [name])) := by
  obtain ⟨left, onward⟩ := leads.arrives .keep false (List.cons_ne_nil name [])
  have look : Mode.LooksUp .keep false name [] := .of_plain plain short (by simp)
  refine resolveNew_of_check check ?_
  rw [cut]
  refine onward _ ?_
  cases shown : files.label? (home ++ [name]) with
  | none => exact absurd shown taken
  | some label =>
      cases label with
      | file data => exact (Ends.file look shown).arrives
      | link target => exact (Ends.kept look shown rfl).arrives
      | dir => exact (Step.enter look shown).arrives Ends.arrived.arrives

/-- Where nothing is, or a file, a file can be written, and is then all that has changed. -/
theorem writeFile_of_open (check : checkPath path = .ok ()) (short : name.length ≤ nameLimit)
    (unslashed : path.endsInSlash = false)
    (fits : files.label? (home ++ [name]) = none ∨
      ∃ old, files.label? (home ++ [name]) = some (.file old)) (data : Bytes) :
    ∃ after, files.writeFile path data = .ok after ∧
      after.label? = Function.update files.label? (home ++ [name]) (some (.file data)) := by
  obtain ⟨left, onward⟩ := leads.arrives .create false (List.cons_ne_nil name [])
  have look : Mode.LooksUp .create false name [] := .of_plain plain short (by simp)
  have free : files.label? (home ++ [name]) ≠ some .dir := by
    rcases fits with absent | ⟨old, shown⟩
    · simp [absent]
    · simp [shown]
  refine ⟨files.put (home ++ [name]) (.file data), ?_, label?_put_file leads.label?_home free data⟩
  rcases fits with absent | ⟨old, shown⟩
  · have resolved : files.resolve .create path = .ok (.vacant home name) := by
      refine resolve_of_check check ?_
      rw [cut, unslashed]
      exact onward _ (Ends.vacant look absent).arrives
    rw [writeFile, resolved]
  · have resolved : files.resolve .create path = .ok (.found (home ++ [name])) := by
      refine resolve_of_check check ?_
      rw [cut, unslashed]
      exact onward _ (Ends.file look shown).arrives
    rw [writeFile, resolved]
    simp only [label?_eq_file_iff.mp shown]

/-- A file is read by the path that leads through its directory. -/
theorem read_of_file (check : checkPath path = .ok ()) (short : name.length ≤ nameLimit)
    (unslashed : path.endsInSlash = false)
    (shown : files.label? (home ++ [name]) = some (.file data)) :
    files.read path = .ok data := by
  obtain ⟨left, onward⟩ := leads.arrives .follow false (List.cons_ne_nil name [])
  have look : Mode.LooksUp .follow false name [] := .of_plain plain short (by simp)
  have resolved : files.resolve .follow path = .ok (.found (home ++ [name])) := by
    refine resolve_of_check check ?_
    rw [cut, unslashed]
    exact onward _ (Ends.file look shown).arrives
  have looked := look_of_resolve resolved (label?_eq_file_iff.mp shown)
  unfold read stat
  rw [looked]

end Last

/-- A name is a path by itself. -/
theorem checkPath_name (entry : name.IsEntry) : checkPath name = .ok () :=
  checkPath_eq_ok_iff.mpr ⟨entry.noNul, entry.ne_nil, Nat.le_trans entry.short (by decide)⟩

/-- What the topmost directory has under a name is read by the name. -/
theorem read_name (entry : name.IsEntry) (shown : files.label? [name] = some (.file data)) :
    files.read name = .ok data := by
  have unslashed : PathText.endsInSlash (PathText.push [] name) = false :=
    PathText.endsInSlash_push entry.toIsPiece
  exact read_of_file (PathText.pieces_of_isPiece entry.toIsPiece) (leadsTo_nil files)
    entry.toIsPlain (checkPath_name entry) entry.short unslashed shown

/-- A name that the topmost directory does not have leads to where it would be. -/
theorem resolveNew_name (entry : name.IsEntry) (absent : files.label? [name] = none) :
    files.resolveNew name = .ok (.vacant [] name) := by
  obtain ⟨left, onward⟩ :=
    (leadsTo_nil files).arrives .keep false (List.cons_ne_nil name [])
  have look : Mode.LooksUp .keep false name [] := .of_plain entry.toIsPlain entry.short (by simp)
  refine resolveNew_of_check (checkPath_name entry) ?_
  rw [PathText.pieces_of_isPiece entry.toIsPiece]
  exact onward _ (Ends.vacant look absent).arrives

section Entry

variable (check : checkPath path = .ok ()) (leads : files.LeadsTo path.pieces home)
  (entry : name.IsEntry)

include check entry in
/-- A path that gets too long is refused. -/
theorem look_of_long (long : pathLimit < (path.push name).length) :
    files.look mode (path.push name) = .error .nameTooLong := by
  have refused := checkPath_push check entry
  rw [if_pos long] at refused
  rw [look, resolve_of_refused refused]

include check leads entry

/-- A file in a directory is read by its name, unless the path gets too long. -/
theorem read_push (shown : files.label? (home ++ [name]) = some (.file data)) :
    files.read (path.push name) =
      if pathLimit < (path.push name).length then .error .nameTooLong else .ok data := by
  split
  · next long => rw [read, stat, look_of_long check entry long]
  · next bounded =>
    have checked := checkPath_push check entry
    rw [if_neg bounded] at checked
    exact read_of_file (PathText.pieces_push entry.toIsPiece) leads entry.toIsPlain checked
      entry.short (PathText.endsInSlash_push entry.toIsPiece) shown

/-- A directory in a directory is entered by its name, unless the path gets too long. -/
theorem readDir_push {inner : Entries}
    (there : files.node? (home ++ [name]) = some (.dir inner)) :
    files.readDir (path.push name) =
      if pathLimit < (path.push name).length then .error .nameTooLong else .ok inner := by
  split
  · next long => rw [readDir, stat, look_of_long check entry long]
  · next bounded =>
    have checked := checkPath_push check entry
    rw [if_neg bounded] at checked
    have here := label?_eq_dir_iff.mpr ⟨inner, there⟩
    have leads' := leads.push entry.toIsPlain entry.short here
    rw [← PathText.pieces_push entry.toIsPiece] at leads'
    rw [readDir, stat, look_of_resolve (resolve_of_leadsTo checked leads') there]

/-- The path by which a directory was entered can be gone on from. -/
theorem leadsTo_of_readDir {inner entries : Entries}
    (there : files.node? (home ++ [name]) = some (.dir inner))
    (entered : files.readDir (path.push name) = .ok entries) :
    checkPath (path.push name) = .ok () ∧
      files.LeadsTo (path.push name).pieces (home ++ [name]) := by
  rw [readDir_push check leads entry there] at entered
  split at entered
  · cases entered
  · next bounded =>
    rw [PathText.pieces_push entry.toIsPiece]
    exact ⟨by rw [checkPath_push check entry, if_neg bounded],
      leads.push entry.toIsPlain entry.short (label?_eq_dir_iff.mpr ⟨inner, there⟩)⟩

end Entry

/-- A directory cannot be made in one that is missing. -/
theorem createDir_of_missing (cut : path.pieces = upper ++ name :: rest)
    (leads : files.LeadsTo upper home) (plain : name.IsPlain) (check : checkPath path = .ok ())
    (short : name.length ≤ nameLimit) (more : rest ≠ [])
    (free : files.label? (home ++ [name]) = none) :
    files.createDir path = .error .notFound := by
  obtain ⟨left, onward⟩ := leads.arrives .keep false (List.cons_ne_nil name rest)
  have look : Mode.LooksUp .keep false name rest := .of_plain plain short (by simp)
  have resolved : files.resolveNew path = .error .notFound := by
    refine resolveNew_of_check check ?_
    rw [cut]
    exact onward _ (Ends.missing look free more).arrives
  rw [createDir, resolved]

/-- Whoever does not follow a link at the end comes to the same directory, or to a link. -/
theorem arrives_keep {walk last : Walk} (steps : ReflTransGen (Step files .follow) walk last)
    (ended : last.pieces = []) (slashed : Bool) :
    ∃ place, Arrives files .keep ⟨walk.links, slashed, walk.place, walk.pieces⟩
        (.ok (.found place)) ∧
      (place = last.place ∨ ∃ target, files.label? place = some (.link target)) := by
  induction steps using ReflTransGen.head_induction_on generalizing slashed with
  | refl =>
      rw [ended]
      exact ⟨_, Ends.arrived.arrives, .inl rfl⟩
  | head step _ ih =>
      cases step with
      | dot =>
          obtain ⟨place, onward, there⟩ := ih slashed
          exact ⟨place, Step.dot.arrives onward, there⟩
      | dotDot =>
          obtain ⟨place, onward, there⟩ := ih slashed
          exact ⟨place, Step.dotDot.arrives onward, there⟩
      | enter look here =>
          obtain ⟨place, onward, there⟩ := ih slashed
          exact ⟨place, (Step.enter (look.within (by simp)) here).arrives onward, there⟩
      | @follow _ _ _ _ rest target look here _ nonempty =>
          have look' : Mode.LooksUp .keep slashed _ rest := look.within (by simp)
          -- The walks part at a link that is the last piece: this one stops there.
          by_cases kept : rest = [] ∧ slashed = false
          · obtain ⟨rfl, rfl⟩ := kept
            exact ⟨_, (Ends.kept look' here rfl).arrives, .inr ⟨target, here⟩⟩
          · have followed : ¬ (rest = [] ∧ slashed = false ∧ Mode.keep = .keep) :=
              fun all => kept ⟨all.1, all.2.1⟩
            obtain ⟨place, onward, there⟩ := ih (slashed || (rest.isEmpty && target.endsInSlash))
            exact ⟨place, (Step.follow look' here followed nonempty).arrives onward, there⟩

/-- A directory that is there cannot be made. -/
theorem createDir_of_leadsTo (check : checkPath path = .ok ())
    (leads : files.LeadsTo path.pieces home) :
    files.createDir path = .error .alreadyExists := by
  obtain ⟨left, steps⟩ := leads
  obtain ⟨place, arrives, -⟩ := arrives_keep steps rfl false
  rw [createDir, resolveNew_of_check check arrives]

/-- What is at the end of a path that leads to a directory, if links are not followed. -/
theorem lstat_of_leadsTo (check : checkPath path = .ok ())
    (leads : files.LeadsTo path.pieces home) :
    ∃ found, files.lstat path = .ok found ∧
      (found.place = home ∨ ∃ target, found.node = .link target) := by
  have here := leads.label?_home
  obtain ⟨left, steps⟩ := leads
  obtain ⟨place, arrives, there⟩ := arrives_keep steps rfl path.endsInSlash
  have resolved := resolve_of_check check arrives
  rcases there with rfl | ⟨target, isLink⟩
  · obtain ⟨entries, isDir⟩ := label?_eq_dir_iff.mp here
    exact ⟨_, look_of_resolve resolved isDir, .inl rfl⟩
  · exact ⟨_, look_of_resolve resolved (label?_eq_link_iff.mp isLink), .inr ⟨target, rfl⟩⟩

/-! ## Coming back to what was written -/

/-- A path that led to a place for a file leads to the file there, in every later tree. -/
theorem resolve_create_later {later : FileSystem} {target : Target}
    (resolved : files.resolve .create path = .ok target) (keeps : files.Keeps later)
    (shown : later.label? target.place = some (.file data)) :
    later.resolve .create path = .ok (.found target.place) := by
  obtain ⟨check, last, steps, ends⟩ := check_of_resolve resolved
  refine resolve_of_check check ⟨last, steps.lift id fun _ _ step => step.mono keeps, ?_⟩
  cases ends with
  | arrived => exact .arrived
  | @vacant _ slashed _ _ look =>
      obtain rfl : slashed = false := by simpa using look.allowed
      exact .file look shown
  | file look => exact .file look shown
  | kept _ _ keep => cases keep

/-- What is found for writing is found for reading. -/
theorem resolve_follow_of_create (resolved : files.resolve .create path = .ok (.found place)) :
    files.resolve .follow path = .ok (.found place) := by
  obtain ⟨check, last, steps, ends⟩ := check_of_resolve resolved
  refine resolve_of_check check ⟨last, steps.lift id fun _ _ step => step.toFollow, ?_⟩
  cases ends with
  | arrived => exact .arrived
  | file look here => exact .file (look.within (by simp)) here
  | kept _ _ keep => cases keep

/-- **A file that was written can be read by the same path, and holds what was
written.** -/
theorem read_of_writeFile (written : files.writeFile path data = .ok after) :
    after.read path = .ok data := by
  obtain ⟨target, resolved, -, update⟩ := writeFile_update written
  have shown : after.label? target.place = some (.file data) := by
    rw [update, Function.update_self]
  have found := resolve_follow_of_create
    (resolve_create_later resolved (writeFile_keeps written) shown)
  have looked := look_of_resolve found (label?_eq_file_iff.mp shown)
  unfold read stat
  rw [looked]

/-- **A file that was written can be written again**, in every later tree, at the same place. -/
theorem writeFile_again (written : files.writeFile path data = .ok after) :
    ∃ place, after = files.put place (.file data) ∧
      after.label? place = some (.file data) ∧
      ∀ later, after.Keeps later →
        later.writeFile path data = .ok (later.put place (.file data)) := by
  obtain ⟨target, resolved, -, update⟩ := writeFile_update written
  obtain ⟨target', resolved', put_eq⟩ := writeFile_eq_put written
  obtain rfl := Except.ok.inj (resolved.symm.trans resolved')
  have shown : after.label? target.place = some (.file data) := by
    rw [update, Function.update_self]
  refine ⟨target.place, put_eq, shown, fun later keeps => ?_⟩
  obtain ⟨label, shown', same⟩ := keeps _ _ shown
  cases same with
  | file _ content =>
      have found := resolve_create_later resolved ((writeFile_keeps written).trans keeps) shown'
      rw [writeFile, found]
      simp only [label?_eq_file_iff.mp shown']

end FileSystem

end FlatArchive
