import FlatArchive.Proofs.FileSystem.Walk
import Mathlib.Data.List.Induction

/-!
# Names that lead to a directory

`LeadsTo` says that pieces, followed from the top, end in a directory, through whatever
links there are on the way.  Once pieces lead to a directory it no longer matters how:
a walk through more pieces goes on from that directory (`LeadsTo.arrives`), and so what
comes of a request is decided by what is shown at and below it.

A tree that keeps what another one has (`Keeps`) leads to the same directories.
-/

namespace FlatArchive

open Relation Walk

/-! ## Trees that keep what is there -/

/-- Labels of the same kind of thing: two files may differ in their content, two links
may not differ in their target. -/
inductive Label.SameKind : Label → Label → Prop
  | file (data data' : Bytes) : SameKind (.file data) (.file data')
  | link (target : PathText) : SameKind (.link target) (.link target)
  | dir : SameKind .dir .dir

namespace Label.SameKind

variable {label label' label'' : Label}

theorem refl (label : Label) : label.SameKind label := by
  cases label with
  | file data => exact .file data data
  | link target => exact .link target
  | dir => exact .dir

theorem trans (first : label.SameKind label') (second : label'.SameKind label'') :
    label.SameKind label'' := by
  cases first with
  | file data => cases second with | file _ data'' => exact .file data data''
  | link target => exact second
  | dir => exact second

end Label.SameKind

/-- Whatever is there before is there after, and is the same kind of thing. -/
def FileSystem.Keeps (before after : FileSystem) : Prop :=
  ∀ place label, before.label? place = some label →
    ∃ label', after.label? place = some label' ∧ label.SameKind label'

namespace FileSystem.Keeps

variable {files after last : FileSystem} {place : Place} {label : Label}

theorem refl (files : FileSystem) : files.Keeps files :=
  fun _ label shown => ⟨label, shown, .refl label⟩

theorem trans (first : files.Keeps after) (second : after.Keeps last) : files.Keeps last := by
  intro place label shown
  obtain ⟨label', shown', same⟩ := first place label shown
  obtain ⟨label'', shown'', same'⟩ := second place label' shown'
  exact ⟨label'', shown'', same.trans same'⟩

theorem dir (keeps : files.Keeps after) (shown : files.label? place = some .dir) :
    after.label? place = some .dir := by
  obtain ⟨label', shown', same⟩ := keeps place _ shown
  cases same with
  | dir => exact shown'

theorem link {target : PathText} (keeps : files.Keeps after)
    (shown : files.label? place = some (.link target)) :
    after.label? place = some (.link target) := by
  obtain ⟨label', shown', same⟩ := keeps place _ shown
  cases same with
  | link => exact shown'

/-- A change at one place keeps what is there if it keeps the kind of what was at that
place. -/
theorem of_update {label : Label}
    (update : after.label? = Function.update files.label? place (some label))
    (same : ∀ old, files.label? place = some old → old.SameKind label) :
    files.Keeps after := by
  intro other old shown
  by_cases here : other = place
  · subst here
    exact ⟨label, by rw [update, Function.update_self], same old shown⟩
  · exact ⟨old, by rw [update, Function.update_of_ne here, shown], .refl old⟩

end FileSystem.Keeps

/-! ## Steps in other circumstances -/

namespace Walk.Step

variable {files after : FileSystem} {mode : Mode} {walk next : Walk}

/-- A step stays possible as long as what is there is kept: the name that it looks up is taken. -/
theorem mono (step : Step files mode walk next) (keeps : files.Keeps after) :
    Step after mode walk next := by
  cases step with
  | dot => exact .dot
  | dotDot => exact .dotDot
  | enter look here => exact .enter look (keeps.dir here)
  | follow look here followed nonempty => exact .follow look (keeps.link here) followed nonempty

/-- A walk never leaves directories. -/
theorem label?_place (step : Step files mode walk next)
    (here : files.label? walk.place = some .dir) : files.label? next.place = some .dir := by
  cases step with
  | dot => exact here
  | dotDot => exact FileSystem.label?_dropLast here
  | enter _ shown => exact shown
  | follow => simp only; split <;> simp_all

/-- What is a step for some purpose is one for whoever follows links. -/
theorem toFollow (step : Step files mode walk next) : Step files .follow walk next := by
  cases step with
  | dot => exact .dot
  | dotDot => exact .dotDot
  | enter look here => exact .enter (look.within (by simp)) here
  | follow look here _ nonempty => exact .follow (look.within (by simp)) here (by simp) nonempty

/-- What is a step for some purpose is one on the way to a directory. -/
theorem toDirectory (step : Step files mode walk next) :
    Step files .follow ⟨walk.links, true, walk.place, walk.pieces⟩
      ⟨next.links, true, next.place, next.pieces⟩ := by
  cases step with
  | dot => exact .dot
  | dotDot => exact .dotDot
  | enter look here => exact .enter (look.within (by simp)) here
  | follow look here followed nonempty =>
      exact .follow (look.within (by simp)) here (by simp) nonempty

/-- A step on the way to a directory is one for every purpose that needs what is behind
that directory. -/
theorem behind (step : Step files .follow walk next) (mode : Mode) (slashed : Bool)
    {rest : List Name} (more : rest ≠ []) :
    Step files mode ⟨walk.links, slashed, walk.place, walk.pieces ++ rest⟩
      ⟨next.links, slashed, next.place, next.pieces ++ rest⟩ := by
  cases step with
  | dot => exact .dot
  | dotDot => exact .dotDot
  | enter look here => exact .enter (look.within (by simp [more])) here
  | @follow links _ place name inner target look here _ nonempty =>
      have look' : mode.LooksUp slashed name (inner ++ rest) := look.within (by simp [more])
      have onward := @Step.follow files mode links slashed place name _ target look' here
        (by simp [more]) nonempty
      have inside : (inner ++ rest).isEmpty = false := by simp [more]
      rw [inside, Bool.false_and, Bool.or_false, ← List.append_assoc] at onward
      exact onward

end Walk.Step

namespace FileSystem

variable {files after : FileSystem} {mode : Mode} {pieces upper names : List Name}
  {name : Name} {home : Place} {path : PathText} {result : Except FileError Target}

/-! ## Leading to a directory -/

/-- The pieces lead from the top to the directory at `home`. -/
def LeadsTo (files : FileSystem) (pieces : List Name) (home : Place) : Prop :=
  ∃ left, ReflTransGen (Step files .follow) ⟨linkLimit, true, [], pieces⟩
    ⟨left, true, home, []⟩

theorem leadsTo_nil (files : FileSystem) : files.LeadsTo [] [] :=
  ⟨linkLimit, .refl⟩

/-- Steps lead from directories to directories only. -/
theorem label?_place_of_steps {walk last : Walk}
    (steps : ReflTransGen (Step files mode) walk last)
    (here : files.label? walk.place = some .dir) : files.label? last.place = some .dir := by
  induction steps with
  | refl => exact here
  | tail _ step ih => exact step.label?_place ih

/-- A walk to a directory can take the steps of any other, whatever the mode of that one: steps
only enter directories and follow links. -/
theorem steps_toDirectory {walk last : Walk} (steps : ReflTransGen (Step files mode) walk last) :
    ReflTransGen (Step files .follow) ⟨walk.links, true, walk.place, walk.pieces⟩
      ⟨last.links, true, last.place, last.pieces⟩ := by
  induction steps with
  | refl => exact .refl
  | tail _ step ih => exact ih.tail step.toDirectory

/-- Steps can be taken with more pieces behind them, in any mode, since none of them is then at
the last piece. -/
theorem steps_behind {walk last : Walk} (steps : ReflTransGen (Step files .follow) walk last)
    (mode : Mode) (slashed : Bool) {rest : List Name} (more : rest ≠ []) :
    ReflTransGen (Step files mode) ⟨walk.links, slashed, walk.place, walk.pieces ++ rest⟩
      ⟨last.links, slashed, last.place, last.pieces ++ rest⟩ := by
  induction steps with
  | refl => exact .refl
  | tail _ step ih => exact ih.tail (step.behind mode slashed more)

namespace LeadsTo

theorem label?_home (leads : files.LeadsTo pieces home) : files.label? home = some .dir := by
  obtain ⟨left, steps⟩ := leads
  exact label?_place_of_steps steps (label?_nil files)

/-- Pieces lead to one directory at most. -/
theorem unique {other : Place} (leads : files.LeadsTo pieces home)
    (leads' : files.LeadsTo pieces other) : home = other := by
  have walk : ∀ {place : Place}, files.LeadsTo pieces place →
      files.walk .follow linkLimit true [] pieces = .ok (.found place) := by
    rintro place ⟨left, steps⟩
    exact (walk_eq_iff .nil).mpr ⟨_, steps, .arrived⟩
  exact Target.found.inj (Except.ok.inj ((walk leads).symm.trans (walk leads')))

/-- Pieces lead to the same directory as long as what is there is kept. -/
theorem mono (leads : files.LeadsTo pieces home) (keeps : files.Keeps after) :
    after.LeadsTo pieces home := by
  obtain ⟨left, steps⟩ := leads
  exact ⟨left, steps.lift id fun _ _ step => step.mono keeps⟩

/-- **A walk through a directory goes on from there.** -/
theorem arrives (leads : files.LeadsTo upper home) (mode : Mode) (slashed : Bool)
    {rest : List Name} (more : rest ≠ []) :
    ∃ left, ∀ result, Arrives files mode ⟨left, slashed, home, rest⟩ result →
      Arrives files mode ⟨linkLimit, slashed, [], upper ++ rest⟩ result := by
  obtain ⟨left, steps⟩ := leads
  refine ⟨left, fun result arrives => ?_⟩
  obtain ⟨last, onward, ends⟩ := arrives
  exact ⟨last, (steps_behind steps mode slashed more).trans onward, ends⟩

/-- Only names that are not too long lead anywhere. -/
theorem short (leads : files.LeadsTo pieces home) : ∀ name ∈ pieces, name.length ≤ nameLimit := by
  have all : ∀ {walk last : Walk}, ReflTransGen (Step files .follow) walk last →
      last.pieces = [] → ∀ name ∈ walk.pieces, name.length ≤ nameLimit := by
    intro walk last steps ended
    induction steps using ReflTransGen.head_induction_on with
    | refl => simp [ended]
    | head step _ ih =>
        cases step with
        | dot => exact List.forall_mem_cons.mpr ⟨by decide, ih⟩
        | dotDot => exact List.forall_mem_cons.mpr ⟨by decide, ih⟩
        | enter look => exact List.forall_mem_cons.mpr ⟨look.short, ih⟩
        | follow look => exact List.forall_mem_cons.mpr ⟨look.short, fun name member =>
            ih name (List.mem_append_right _ member)⟩
  obtain ⟨left, steps⟩ := leads
  exact all steps rfl

/-- Pieces lead on into a directory in the one that they lead to. -/
theorem push (leads : files.LeadsTo upper home) (plain : name.IsPlain)
    (short : name.length ≤ nameLimit) (here : files.label? (home ++ [name]) = some .dir) :
    files.LeadsTo (upper ++ [name]) (home ++ [name]) := by
  obtain ⟨left, steps⟩ := leads
  have onward := steps_behind steps .follow true (List.cons_ne_nil name [])
  have last : Step files .follow ⟨left, true, home, [name]⟩ ⟨left, true, home ++ [name], []⟩ :=
    .enter (.of_plain plain short (by simp)) here
  exact ⟨left, onward.tail last⟩

/-- Directories below a directory are entered by their names. -/
theorem append (leads : files.LeadsTo upper home) (plain : ∀ name ∈ names, name.IsPlain)
    (short : ∀ name ∈ names, name.length ≤ nameLimit)
    (here : files.label? (home ++ names) = some .dir) :
    files.LeadsTo (upper ++ names) (home ++ names) := by
  induction names using List.reverseRecOn with
  | nil => simpa using leads
  | append_singleton init name ih =>
      rw [← List.append_assoc] at here ⊢
      rw [← List.append_assoc]
      have member : name ∈ init ++ [name] := List.mem_append_right _ List.mem_cons_self
      refine (ih ?_ ?_ ?_).push (plain name member) (short name member) here
      · exact fun other inside => plain other (List.mem_append_left _ inside)
      · exact fun other inside => short other (List.mem_append_left _ inside)
      · exact label?_dir_of_below (by rw [here]; simp) (List.cons_ne_nil name [])

end LeadsTo

/-! ## Paths -/

/-- A path is accepted if it is not empty, has no NUL, and is no longer than paths may be. -/
theorem checkPath_eq_ok_iff :
    checkPath path = .ok () ↔ 0 ∉ path ∧ path ≠ [] ∧ path.length ≤ pathLimit := by
  unfold checkPath
  split
  · simp_all
  · split
    · simp_all
    · split
      · simp_all
      · simp_all

/-- Names behind a path are not what it is refused for, unless it gets too long. -/
theorem checkPath_extend (noNulPath : 0 ∉ path) (nonempty : path.extend names ≠ [])
    (noNul : ∀ name ∈ names, (0 : UInt8) ∉ name)
    (bounded : (path.extend names).length ≤ pathLimit) :
    checkPath (path.extend names) = .ok () := by
  refine checkPath_eq_ok_iff.mpr ⟨fun nul => ?_, nonempty, bounded⟩
  rcases PathText.mem_extend nul with inside | cut | ⟨name, member, inside⟩
  · exact noNulPath inside
  · exact absurd cut (by decide)
  · exact noNul name member inside

/-- A name behind a path can only make it too long. -/
theorem checkPath_push (check : checkPath path = .ok ()) (entry : name.IsEntry) :
    checkPath (path.push name) =
      if pathLimit < (path.push name).length then .error .nameTooLong else .ok () := by
  have noNul : 0 ∉ path.push name := by
    intro nul
    rcases PathText.mem_push nul with inside | cut | inside
    · exact (checkPath_eq_ok_iff.mp check).1 inside
    · exact absurd cut (by decide)
    · exact entry.noNul inside
  rw [checkPath, if_neg noNul, if_neg (PathText.push_ne_nil entry.toIsPiece)]

theorem resolve_of_refused {e : FileError} (refused : checkPath path = .error e) :
    files.resolve mode path = .error e := by
  rw [resolve, refused]

theorem resolve_of_check (check : checkPath path = .ok ())
    (arrives : Arrives files mode ⟨linkLimit, path.endsInSlash, [], path.pieces⟩ result) :
    files.resolve mode path = result := by
  rw [resolve, check]
  exact (walk_eq_iff .nil).mpr arrives

theorem resolveNew_of_check (check : checkPath path = .ok ())
    (arrives : Arrives files .keep ⟨linkLimit, false, [], path.pieces⟩ result) :
    files.resolveNew path = result := by
  rw [resolveNew, check]
  exact (walk_eq_iff .nil).mpr arrives

theorem check_of_resolve {target : Target} (resolved : files.resolve mode path = .ok target) :
    checkPath path = .ok () ∧
      Arrives files mode ⟨linkLimit, path.endsInSlash, [], path.pieces⟩ (.ok target) := by
  unfold resolve at resolved
  split at resolved
  · cases resolved
  · next check => exact ⟨check, (walk_eq_iff .nil).mp resolved⟩

theorem check_of_resolveNew {target : Target} (resolved : files.resolveNew path = .ok target) :
    checkPath path = .ok () ∧
      Arrives files .keep ⟨linkLimit, false, [], path.pieces⟩ (.ok target) := by
  unfold resolveNew at resolved
  split at resolved
  · cases resolved
  · next check => exact ⟨check, (walk_eq_iff .nil).mp resolved⟩

end FileSystem

end FlatArchive
