import FlatArchive.Proofs.FileSystem.Labels
import FlatArchive.Proofs.FileSystem.Paths
import Mathlib.Logic.Relation

/-!
# A walk step by step

The walk through a path carries the entries of every directory that it is in.  What it
does depends on less: on the place that it has come to, and on what the tree shows at the
place of the next piece.  `Step` and `Ends` are the walk said in these terms, one rule for
each thing that can be met, and `walk_eq_iff` says that they describe the walk exactly.

The use of it is that rules can be carried over.  A step that was possible stays possible
in every tree that shows the same directories and links, and when more pieces follow.
-/

namespace FlatArchive

open Relation

/-- What is left of a walk. -/
structure Walk where
  /-- The links that it may still follow. -/
  links : Nat
  /-- Whether a slash follows the last piece. -/
  slashed : Bool
  /-- The directory that it has come to. -/
  place : Place
  /-- The pieces that it has not gone through. -/
  pieces : List Name

/-- A piece that is looked up, with `rest` behind it: one that is neither dots nor
refused for its form. -/
structure Mode.LooksUp (mode : Mode) (slashed : Bool) (name : Name) (rest : List Name) :
    Prop where
  ne_dot : name ≠ dot
  ne_dotDot : name ≠ dotDot
  allowed : ¬ (rest = [] ∧ slashed = true ∧ mode = .create)
  short : name.length ≤ nameLimit

namespace Mode.LooksUp

variable {mode mode' : Mode} {slashed slashed' : Bool} {name : Name} {rest rest' : List Name}

theorem of_not_lt (ne_dot : name ≠ dot) (ne_dotDot : name ≠ dotDot)
    (allowed : ¬ (rest = [] ∧ slashed = true ∧ mode = .create))
    (short : ¬ nameLimit < name.length) : mode.LooksUp slashed name rest :=
  ⟨ne_dot, ne_dotDot, allowed, Nat.le_of_not_lt short⟩

theorem of_plain (plain : name.IsPlain) (short : name.length ≤ nameLimit)
    (allowed : ¬ (rest = [] ∧ slashed = true ∧ mode = .create)) :
    mode.LooksUp slashed name rest :=
  ⟨plain.ne_dot, plain.ne_dotDot, allowed, short⟩

/-- What a piece is looked up for matters only if a file is to be written. -/
theorem within (look : mode.LooksUp slashed name rest)
    (allowed : ¬ (rest' = [] ∧ slashed' = true ∧ mode' = .create)) :
    mode'.LooksUp slashed' name rest' :=
  ⟨look.ne_dot, look.ne_dotDot, allowed, look.short⟩

end Mode.LooksUp

/-- How a walk goes on. -/
inductive Walk.Step (files : FileSystem) (mode : Mode) : Walk → Walk → Prop
  | dot {links : Nat} {slashed : Bool} {place : Place} {rest : List Name} :
      Step files mode ⟨links, slashed, place, dot :: rest⟩ ⟨links, slashed, place, rest⟩
  | dotDot {links : Nat} {slashed : Bool} {place : Place} {rest : List Name} :
      Step files mode ⟨links, slashed, place, dotDot :: rest⟩
        ⟨links, slashed, place.dropLast, rest⟩
  | enter {links : Nat} {slashed : Bool} {place : Place} {name : Name} {rest : List Name}
      (look : mode.LooksUp slashed name rest)
      (here : files.label? (place ++ [name]) = some .dir) :
      Step files mode ⟨links, slashed, place, name :: rest⟩
        ⟨links, slashed, place ++ [name], rest⟩
  | follow {links : Nat} {slashed : Bool} {place : Place} {name : Name} {rest : List Name}
      {target : PathText} (look : mode.LooksUp slashed name rest)
      (here : files.label? (place ++ [name]) = some (.link target))
      (followed : ¬ (rest = [] ∧ slashed = false ∧ mode = .keep)) (nonempty : target ≠ []) :
      Step files mode ⟨links + 1, slashed, place, name :: rest⟩
        ⟨links, slashed || (rest.isEmpty && target.endsInSlash),
          if target.isRooted then [] else place, target.pieces ++ rest⟩

/-- How a walk ends. -/
inductive Walk.Ends (files : FileSystem) (mode : Mode) : Walk → Except FileError Target → Prop
  | arrived {links : Nat} {slashed : Bool} {place : Place} :
      Ends files mode ⟨links, slashed, place, []⟩ (.ok (.found place))
  | slashed {links : Nat} {place : Place} {name : Name} (ne_dot : name ≠ dot)
      (ne_dotDot : name ≠ dotDot) (create : mode = .create) :
      Ends files mode ⟨links, true, place, [name]⟩ (.error .isADirectory)
  | tooLong {links : Nat} {slashed : Bool} {place : Place} {name : Name} {rest : List Name}
      (ne_dot : name ≠ dot) (ne_dotDot : name ≠ dotDot)
      (allowed : ¬ (rest = [] ∧ slashed = true ∧ mode = .create))
      (long : nameLimit < name.length) :
      Ends files mode ⟨links, slashed, place, name :: rest⟩ (.error .nameTooLong)
  | vacant {links : Nat} {slashed : Bool} {place : Place} {name : Name}
      (look : mode.LooksUp slashed name []) (free : files.label? (place ++ [name]) = none) :
      Ends files mode ⟨links, slashed, place, [name]⟩ (.ok (.vacant place name))
  | missing {links : Nat} {slashed : Bool} {place : Place} {name : Name} {rest : List Name}
      (look : mode.LooksUp slashed name rest) (free : files.label? (place ++ [name]) = none)
      (more : rest ≠ []) :
      Ends files mode ⟨links, slashed, place, name :: rest⟩ (.error .notFound)
  | file {links : Nat} {place : Place} {name : Name} {data : Bytes}
      (look : mode.LooksUp false name [])
      (here : files.label? (place ++ [name]) = some (.file data)) :
      Ends files mode ⟨links, false, place, [name]⟩ (.ok (.found (place ++ [name])))
  | notDirectory {links : Nat} {slashed : Bool} {place : Place} {name : Name}
      {rest : List Name} {data : Bytes} (look : mode.LooksUp slashed name rest)
      (here : files.label? (place ++ [name]) = some (.file data))
      (through : ¬ (rest = [] ∧ slashed = false)) :
      Ends files mode ⟨links, slashed, place, name :: rest⟩ (.error .notADirectory)
  | kept {links : Nat} {place : Place} {name : Name} {target : PathText}
      (look : mode.LooksUp false name [])
      (here : files.label? (place ++ [name]) = some (.link target)) (keep : mode = .keep) :
      Ends files mode ⟨links, false, place, [name]⟩ (.ok (.found (place ++ [name])))
  | tooManyLinks {slashed : Bool} {place : Place} {name : Name} {rest : List Name}
      {target : PathText} (look : mode.LooksUp slashed name rest)
      (here : files.label? (place ++ [name]) = some (.link target))
      (followed : ¬ (rest = [] ∧ slashed = false ∧ mode = .keep)) :
      Ends files mode ⟨0, slashed, place, name :: rest⟩ (.error .tooManyLinks)
  | emptyLink {links : Nat} {slashed : Bool} {place : Place} {name : Name}
      {rest : List Name} (look : mode.LooksUp slashed name rest)
      (here : files.label? (place ++ [name]) = some (.link []))
      (followed : ¬ (rest = [] ∧ slashed = false ∧ mode = .keep)) :
      Ends files mode ⟨links + 1, slashed, place, name :: rest⟩ (.error .notFound)

/-- Where a walk leads in the end. -/
def Walk.Arrives (files : FileSystem) (mode : Mode) (walk : Walk)
    (result : Except FileError Target) : Prop :=
  ∃ last, ReflTransGen (Step files mode) walk last ∧ Ends files mode last result

/-! ## Trails -/

/-- A trail whose steps are there. -/
inductive Trail.Leads (files : FileSystem) : Trail → Prop
  | nil : Leads files []
  | cons {trail : Trail} {name : Name} {entries : Entries} (leads : Leads files trail)
      (step : (trail.here files).lookup name = some (.dir entries)) :
      Leads files ((name, entries) :: trail)

namespace Trail

variable {files : FileSystem} {trail : Trail} {name : Name}

@[simp] theorem place_cons (step : Name × Entries) (trail : Trail) :
    Trail.place (step :: trail) = trail.place ++ [step.1] := by
  simp [place]

@[simp] theorem place_tail (trail : Trail) : Trail.place trail.tail = trail.place.dropLast := by
  simp [place, List.dropLast_reverse]

namespace Leads

theorem tail (leads : Leads files trail) : Leads files trail.tail := by
  cases leads with
  | nil => exact .nil
  | cons leads _ => exact leads

/-- A trail holds the entries of the directory to which it leads. -/
theorem node?_place (leads : Leads files trail) :
    files.node? trail.place = some (.dir (trail.here files)) := by
  induction leads with
  | nil => simp [place, here, FileSystem.node?]
  | cons leads step ih =>
      rw [place_cons, FileSystem.node?_append, ih, Option.bind_some,
        Node.descend_dir_cons, step, Option.bind_some, Node.descend_nil]
      rfl

/-- What a trail ends in has the entries that are there in the tree. -/
theorem lookup_here (leads : Leads files trail) (name : Name) :
    (trail.here files).lookup name = files.node? (trail.place ++ [name]) := by
  rw [FileSystem.node?_append, leads.node?_place, Option.bind_some, Node.descend_dir_cons]
  cases (trail.here files).lookup name with
  | none => rfl
  | some node => simp

end Leads

end Trail

/-! ## The rules describe the walk -/

namespace Walk

variable {files : FileSystem} {mode : Mode} {walk next last : Walk} {trail : Trail}
  {result : Except FileError Target}

theorem Ends.arrives (ends : Ends files mode walk result) : Arrives files mode walk result :=
  ⟨walk, .refl, ends⟩

theorem Step.arrives (step : Step files mode walk next)
    (arrives : Arrives files mode next result) : Arrives files mode walk result := by
  obtain ⟨last, steps, ends⟩ := arrives
  exact ⟨last, .head step steps, ends⟩

/-- The entry that a trail finds is labelled as it is in the tree. -/
theorem label?_of_lookup (leads : trail.Leads files) {name : Name} {node : Node}
    (found : (trail.here files).lookup name = some node) :
    files.label? (trail.place ++ [name]) = some node.label := by
  rw [FileSystem.label?, ← leads.lookup_here, found]
  rfl

theorem label?_of_lookup_none (leads : trail.Leads files) {name : Name}
    (absent : (trail.here files).lookup name = none) :
    files.label? (trail.place ++ [name]) = none := by
  rw [FileSystem.label?, ← leads.lookup_here, absent]
  rfl

/-- Every walk goes and ends by the rules. -/
theorem arrives_walk (files : FileSystem) (mode : Mode) (links : Nat) (slashed : Bool)
    {trail : Trail} (leads : trail.Leads files) (pieces : List Name) :
    Arrives files mode ⟨links, slashed, trail.place, pieces⟩
      (files.walk mode links slashed trail pieces) := by
  fun_induction FileSystem.walk files mode links slashed trail pieces with
  | case1 => exact Ends.arrived.arrives
  | case2 _ _ _ _ ih => exact Step.dot.arrives (ih leads)
  | case3 _ _ _ _ _ ih =>
      have onward := ih leads.tail
      rw [Trail.place_tail] at onward
      exact Step.dotDot.arrives onward
  | case4 _ _ _ _ _ ne_dot ne_dotDot refused =>
      obtain ⟨rfl, rfl, create⟩ := refused
      exact (Ends.slashed ne_dot ne_dotDot create).arrives
  | case5 _ _ _ _ _ ne_dot ne_dotDot allowed long =>
      exact (Ends.tooLong ne_dot ne_dotDot allowed long).arrives
  | case6 _ _ _ _ ne_dot ne_dotDot short absent allowed =>
      have look := Mode.LooksUp.of_not_lt ne_dot ne_dotDot allowed short
      exact (Ends.vacant look (label?_of_lookup_none leads absent)).arrives
  | case7 _ _ _ _ _ ne_dot ne_dotDot allowed short absent more =>
      have look := Mode.LooksUp.of_not_lt ne_dot ne_dotDot allowed short
      exact (Ends.missing look (label?_of_lookup_none leads absent) more).arrives
  | case8 _ _ _ _ _ ne_dot ne_dotDot allowed short _ found ih =>
      have look := Mode.LooksUp.of_not_lt ne_dot ne_dotDot allowed short
      have onward := ih (.cons leads found)
      rw [Trail.place_cons] at onward
      exact (Step.enter look (label?_of_lookup leads found)).arrives onward
  | case9 _ _ _ _ _ ne_dot ne_dotDot allowed short _ found whole =>
      have look := Mode.LooksUp.of_not_lt ne_dot ne_dotDot allowed short
      obtain ⟨rfl, unslashed⟩ := whole
      rw [Bool.not_eq_true] at unslashed
      subst unslashed
      exact (Ends.file look (label?_of_lookup leads found)).arrives
  | case10 _ _ _ _ _ ne_dot ne_dotDot allowed short _ found through =>
      have look := Mode.LooksUp.of_not_lt ne_dot ne_dotDot allowed short
      rw [Bool.not_eq_true] at through
      exact (Ends.notDirectory look (label?_of_lookup leads found) through).arrives
  | case11 _ _ _ _ _ ne_dot ne_dotDot allowed short _ found whole =>
      have look := Mode.LooksUp.of_not_lt ne_dot ne_dotDot allowed short
      obtain ⟨rfl, unslashed, keep⟩ := whole
      rw [Bool.not_eq_true] at unslashed
      subst unslashed
      exact (Ends.kept look (label?_of_lookup leads found) keep).arrives
  | case12 _ _ _ _ ne_dot ne_dotDot allowed short _ found followed =>
      have look := Mode.LooksUp.of_not_lt ne_dot ne_dotDot allowed short
      rw [Bool.not_eq_true] at followed
      exact (Ends.tooManyLinks look (label?_of_lookup leads found) followed).arrives
  | case13 _ _ _ _ ne_dot ne_dotDot allowed short followed _ found =>
      have look := Mode.LooksUp.of_not_lt ne_dot ne_dotDot allowed short
      rw [Bool.not_eq_true] at followed
      exact (Ends.emptyLink look (label?_of_lookup leads found) followed).arrives
  | case14 _ _ _ _ ne_dot ne_dotDot allowed short target found followed _ nonempty ih =>
      have look := Mode.LooksUp.of_not_lt ne_dot ne_dotDot allowed short
      rw [Bool.not_eq_true] at followed
      refine (Step.follow look (label?_of_lookup leads found) followed nonempty).arrives ?_
      -- A target that begins at the top leaves the trail behind, any other goes on from its end.
      cases rooted : target.isRooted with
      | true => simpa [rooted, Trail.place] using ih (by simpa [rooted] using .nil)
      | false => simpa [rooted] using ih (by simpa [rooted] using leads)

theorem node?_of_label? {place : Place} (leads : trail.Leads files)
    (here : trail.place = place) (name : Name) :
    (trail.here files).lookup name = files.node? (place ++ [name]) := by
  rw [leads.lookup_here, here]

/-- A walk that looks a piece up does what the entry asks for. -/
theorem walk_looksUp {slashed : Bool} {name : Name} {rest : List Name}
    (look : mode.LooksUp slashed name rest) (links : Nat) (trail : Trail) :
    files.walk mode links slashed trail (name :: rest) =
      match (trail.here files).lookup name with
      | none => if rest = [] then .ok (.vacant trail.place name) else .error .notFound
      | some (.dir entries) => files.walk mode links slashed ((name, entries) :: trail) rest
      | some (.file _) =>
        if rest = [] ∧ ¬slashed then .ok (.found (trail.place ++ [name]))
        else .error .notADirectory
      | some (.link target) =>
        if rest = [] ∧ ¬slashed ∧ mode = .keep then .ok (.found (trail.place ++ [name]))
        else match links with
          | 0 => .error .tooManyLinks
          | links + 1 =>
            if target = [] then .error .notFound
            else files.walk mode links (slashed || (rest.isEmpty && target.endsInSlash))
              (if target.isRooted then [] else trail) (target.pieces ++ rest) := by
  rewrite [FileSystem.walk, if_neg look.ne_dot, if_neg look.ne_dotDot, if_neg look.allowed,
    if_neg (Nat.not_lt.mpr look.short)]
  rfl

/-- A walk that ends by the rules ends so. -/
theorem Ends.walk_eq (ends : Ends files mode walk result) (leads : trail.Leads files)
    (here : trail.place = walk.place) :
    files.walk mode walk.links walk.slashed trail walk.pieces = result := by
  cases ends with
  | arrived => rw [FileSystem.walk, here]
  | slashed ne_dot ne_dotDot create =>
      rw [FileSystem.walk, if_neg ne_dot, if_neg ne_dotDot, if_pos ⟨rfl, rfl, create⟩]
  | tooLong ne_dot ne_dotDot allowed long =>
      rw [FileSystem.walk, if_neg ne_dot, if_neg ne_dotDot, if_neg allowed, if_pos long]
  | vacant look free =>
      rw [walk_looksUp look, node?_of_label? leads here,
        FileSystem.label?_eq_none_iff.mp free, here]
      rfl
  | missing look free more =>
      rw [walk_looksUp look, node?_of_label? leads here,
        FileSystem.label?_eq_none_iff.mp free]
      exact if_neg more
  | file look found =>
      rw [walk_looksUp look, node?_of_label? leads here,
        FileSystem.label?_eq_file_iff.mp found, here]
      rfl
  | notDirectory look found through =>
      rw [walk_looksUp look, node?_of_label? leads here,
        FileSystem.label?_eq_file_iff.mp found]
      exact if_neg (by simpa using through)
  | kept look found keep =>
      rw [walk_looksUp look, node?_of_label? leads here,
        FileSystem.label?_eq_link_iff.mp found, here]
      exact if_pos ⟨rfl, Bool.false_ne_true, keep⟩
  | tooManyLinks look found followed =>
      rw [walk_looksUp look, node?_of_label? leads here,
        FileSystem.label?_eq_link_iff.mp found]
      exact if_neg (by simpa using followed)
  | emptyLink look found followed =>
      rw [walk_looksUp look, node?_of_label? leads here,
        FileSystem.label?_eq_link_iff.mp found]
      exact if_neg (by simpa using followed)

/-- A step leaves the outcome of a walk as it is, on a trail to where the step leads. -/
theorem Step.walk_eq (step : Step files mode walk next) (leads : trail.Leads files)
    (here : trail.place = walk.place) :
    ∃ onward : Trail, onward.Leads files ∧ onward.place = next.place ∧
      files.walk mode walk.links walk.slashed trail walk.pieces =
        files.walk mode next.links next.slashed onward next.pieces := by
  cases step with
  | dot => exact ⟨trail, leads, here, by rw [FileSystem.walk, if_pos rfl]⟩
  | dotDot =>
      refine ⟨trail.tail, leads.tail, by rw [Trail.place_tail, here], ?_⟩
      rw [FileSystem.walk, if_neg (by decide), if_pos rfl]
  | @enter _ _ _ name _ look shown =>
      obtain ⟨entries, found⟩ := FileSystem.label?_eq_dir_iff.mp shown
      rw [← node?_of_label? leads here] at found
      refine ⟨(name, entries) :: trail, .cons leads found, ?_, ?_⟩
      · rw [Trail.place_cons, here]
      · rw [walk_looksUp look, found]
  | @follow _ _ _ _ _ target look shown followed nonempty =>
      refine ⟨if target.isRooted then [] else trail, ?_, ?_, ?_⟩
      · split
        · exact .nil
        · exact leads
      · split
        · rfl
        · exact here
      · rw [walk_looksUp look, node?_of_label? leads here,
          FileSystem.label?_eq_link_iff.mp shown]
        exact (if_neg (by simpa using followed)).trans (if_neg nonempty)

/-- **The rules describe the walk exactly.** -/
theorem walk_eq_iff {links : Nat} {slashed : Bool} {pieces : List Name}
    (leads : trail.Leads files) :
    files.walk mode links slashed trail pieces = result ↔
      Arrives files mode ⟨links, slashed, trail.place, pieces⟩ result := by
  constructor
  · rintro rfl
    exact arrives_walk files mode links slashed leads pieces
  · rintro ⟨last, steps, ends⟩
    generalize start : Walk.mk links slashed trail.place pieces = walk at steps
    have here : trail.place = walk.place := by rw [← start]
    have same : files.walk mode links slashed trail pieces =
        files.walk mode walk.links walk.slashed trail walk.pieces := by rw [← start]
    rw [same]
    clear start same
    induction steps using ReflTransGen.head_induction_on generalizing trail with
    | refl => exact ends.walk_eq leads here
    | head step _ ih =>
        obtain ⟨onward, leads, here, walk_eq⟩ := step.walk_eq leads here
        rw [walk_eq]
        exact ih leads here

end Walk

end FlatArchive
