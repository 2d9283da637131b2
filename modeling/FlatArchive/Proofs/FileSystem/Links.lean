import FlatArchive.Proofs.FileSystem.WellFormed

/-!
# The way to a link

A link says where to go from the directory that it is in, whatever path leads there; the way to
that directory matters only for how many links are left to go.  So what a path finds by a name
in a directory can also be found by the names of its place, which lead over no link before the
last one (`walk_place_of_resolve`).
-/

namespace FlatArchive

open Relation Walk

namespace Walk

variable {files : FileSystem} {mode : Mode} {walk next last : Walk} {trail : Trail}
  {result : Except FileError Target} {target : Target}

/-! ## More links to go -/

/-- A walk with more links to go. -/
def withMore (extra : Nat) (walk : Walk) : Walk :=
  { walk with links := walk.links + extra }

theorem Step.withMore (step : Step files mode walk next) (extra : Nat) :
    Step files mode (walk.withMore extra) (next.withMore extra) := by
  cases step with
  | dot => exact .dot
  | dotDot => exact .dotDot
  | enter look here => exact .enter look here
  | @follow links slashed place name rest target look here followed nonempty =>
      simp only [Walk.withMore]
      rw [Nat.add_right_comm links 1 extra]
      exact .follow look here followed nonempty

/-- A walk that finds something finds it also with more links to go. -/
theorem Arrives.withMore (arrives : Arrives files mode walk (.ok target)) (extra : Nat) :
    Arrives files mode (walk.withMore extra) (.ok target) := by
  obtain ⟨last, steps, ends⟩ := arrives
  refine ⟨last.withMore extra, steps.lift _ fun _ _ step => step.withMore extra, ?_⟩
  cases ends with
  | arrived => exact .arrived
  | vacant look free => exact .vacant look free
  | file look here => exact .file look here
  | kept look here keep => exact .kept look here keep

/-- Steps use links up and never give any back. -/
theorem links_le_of_steps (steps : ReflTransGen (Step files mode) walk last) :
    last.links ≤ walk.links := by
  induction steps with
  | refl => exact Nat.le_refl _
  | tail _ step ih =>
      cases step with
      | dot => exact ih
      | dotDot => exact ih
      | enter => exact ih
      | follow => exact Nat.le_of_succ_le ih

/-- Where a walk leads, it leads from each of its steps. -/
theorem Arrives.of_steps (arrives : Arrives files mode walk result)
    (steps : ReflTransGen (Step files mode) walk last) (leads : trail.Leads files)
    (here : trail.place = walk.place) : Arrives files mode last result := by
  obtain ⟨onward, leads', here', same⟩ : ∃ onward : Trail, onward.Leads files ∧
      onward.place = last.place ∧ files.walk mode walk.links walk.slashed trail walk.pieces =
        files.walk mode last.links last.slashed onward last.pieces := by
    clear arrives
    induction steps with
    | refl => exact ⟨trail, leads, here, rfl⟩
    | tail _ step ih =>
        obtain ⟨middle, leads, here, same⟩ := ih
        obtain ⟨onward, leads', here', same'⟩ := step.walk_eq leads here
        exact ⟨onward, leads', here', same.trans same'⟩
  have walked : files.walk mode walk.links walk.slashed trail walk.pieces = result :=
    (walk_eq_iff leads).mpr (by rw [here]; exact arrives)
  have further := (walk_eq_iff leads').mp (same.symm.trans walked)
  rwa [here'] at further

end Walk

namespace FileSystem

variable {files : FileSystem} {path : PathText} {home place : Place} {names : List Name}
  {name : Name} {target : Target}

/-! ## Names of places -/

/-- Directories are entered by their names, which takes no links. -/
theorem steps_enter (entry : ∀ name ∈ names, name.IsEntry)
    (here : files.label? (home ++ names) = some .dir) (mode : Mode) (links : Nat) (slashed : Bool)
    {rest : List Name} (more : rest ≠ []) :
    ReflTransGen (Step files mode) ⟨links, slashed, home, names ++ rest⟩
      ⟨links, slashed, home ++ names, rest⟩ := by
  induction names using List.reverseRecOn generalizing rest with
  | nil => simpa using ReflTransGen.refl
  | append_singleton init last ih =>
      have isEntry : last.IsEntry := entry last (List.mem_append_right _ List.mem_cons_self)
      rw [← List.append_assoc] at here ⊢
      have above : files.label? (home ++ init) = some .dir :=
        label?_dir_of_below (by rw [here]; simp) (List.cons_ne_nil last [])
      have onward := ih (fun name member => entry name (List.mem_append_left _ member)) above
        (List.cons_ne_nil last rest)
      rw [List.append_assoc, List.singleton_append]
      exact onward.tail (.enter (.of_plain isEntry.toIsPlain isEntry.short (by simp [more])) here)

/-- **What a path finds by a name in a directory is found by the names of the place.** -/
theorem walk_place_of_resolve (wellFormed : files.WellFormed)
    (leads : files.LeadsTo path.pieces place) (isEntry : name.IsEntry)
    (resolved : files.resolve .follow (path.push name) = .ok target) :
    files.walk .follow linkLimit false [] (place ++ [name]) = .ok target := by
  have here := leads.label?_home
  obtain ⟨left, steps⟩ := leads
  have onward := steps_behind steps .follow false (List.cons_ne_nil name [])
  have arrives := (check_of_resolve resolved).2
  rw [PathText.pieces_push isEntry.toIsPiece,
    PathText.endsInSlash_push isEntry.toIsPiece] at arrives
  have behind := (arrives.of_steps onward .nil rfl).withMore (linkLimit - left)
  have all : left + (linkLimit - left) = linkLimit :=
    Nat.add_sub_cancel' (links_le_of_steps onward)
  obtain ⟨last, further, ends⟩ : Arrives files .follow ⟨linkLimit, false, place, [name]⟩
      (.ok target) := by
    simpa only [Walk.withMore, List.nil_append, all] using behind
  have entry : ∀ name ∈ place, name.IsEntry := by
    obtain ⟨inner, there⟩ := label?_eq_dir_iff.mp here
    exact Node.WellFormed.isEntry_of_descend wellFormed there
  have enter : ReflTransGen (Step files .follow) ⟨linkLimit, false, [], place ++ [name]⟩
      ⟨linkLimit, false, place, [name]⟩ :=
    steps_enter entry here .follow linkLimit false (List.cons_ne_nil name [])
  exact (walk_eq_iff .nil).mpr ⟨last, enter.trans further, ends⟩

end FileSystem

end FlatArchive
