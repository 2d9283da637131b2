import FlatArchive.Proofs.FileSystem.Requests

/-!
# Making a directory with those above it

`createDirAll` asks for the lowest directory first and goes up only as far as it has to.
What it comes to is that every directory that was missing on the way is there
(`createDirAll_of_open`), and it comes to this whenever nothing but directories is in the
way.  Conversely, a path for which it succeeds was open: its pieces led to some directory,
and nothing was there from its next name on (`open_of_createDirAll`).

The induction is on the names that are below the directory to which the path already
leads, the last one first, as the chain of paths is built.
-/

namespace FlatArchive

open Relation Walk

namespace FileSystem

variable {files after : FileSystem} {path : PathText} {place home : Place}
  {upper names : List Name} {name : Name}

/-- The directories on the way from `home` to the place that `names` lead to from there. -/
def OnTheWay (home : Place) (names : List Name) (place : Place) : Prop :=
  home <+: place ∧ place <+: home ++ names

/-- Nothing but directories is on the way. -/
def IsOpen (files : FileSystem) (home : Place) (names : List Name) : Prop :=
  ∀ place, OnTheWay home names place →
    files.label? place = none ∨ files.label? place = some .dir

/-- All directories on the way are there, and all else is as it was. -/
def Opened (files after : FileSystem) (home : Place) (names : List Name) : Prop :=
  ∀ place, (OnTheWay home names place → after.label? place = some .dir) ∧
    (¬ OnTheWay home names place → after.label? place = files.label? place)

theorem onTheWay_concat :
    OnTheWay home (names ++ [name]) place ↔
      OnTheWay home names place ∨ place = home ++ names ++ [name] := by
  unfold OnTheWay
  rw [← List.append_assoc, List.prefix_concat_iff]
  constructor
  · rintro ⟨below, whole | front⟩
    · exact .inr whole
    · exact .inl ⟨below, front⟩
  · rintro (⟨below, front⟩ | whole)
    · exact ⟨below, .inr front⟩
    · exact ⟨⟨names ++ [name], by rw [whole, List.append_assoc]⟩, .inl whole⟩

theorem onTheWay_self (home : Place) (names : List Name) : OnTheWay home names (home ++ names) :=
  ⟨List.prefix_append _ _, List.prefix_refl _⟩

/-- What lies below the end of the way is not on it. -/
theorem not_onTheWay_below {below : Place} (lower : below ≠ []) :
    ¬ OnTheWay home names (home ++ names ++ below) := by
  rintro ⟨-, within⟩
  have longer := within.length_le
  have := List.length_pos_of_ne_nil lower
  simp only [List.length_append] at longer
  omega

/-- What is on the way to the last but one name is a proper part of the way to the last. -/
theorem onTheWay_dropLast {route : Place} (nonempty : names ≠ []) :
    OnTheWay home names.dropLast (home ++ route) ↔ route <+: names ∧ route ≠ names := by
  obtain ⟨init, last, rfl⟩ := (List.eq_nil_or_concat names).resolve_left nonempty
  rw [List.concat_eq_append]
  simp only [OnTheWay, List.prefix_append, true_and, List.prefix_append_right_inj,
    List.dropLast_concat, List.prefix_concat_iff]
  constructor
  · intro front
    refine ⟨.inr front, ?_⟩
    rintro rfl
    have longer := front.length_le
    simp only [List.length_append, List.length_singleton] at longer
    omega
  · rintro ⟨whole | front, other⟩
    · exact absurd whole other
    · exact front

theorem IsOpen.init (way : files.IsOpen home (names ++ [name])) : files.IsOpen home names :=
  fun place on => way place (onTheWay_concat.mpr (.inl on))

namespace Opened

theorem keeps (opened : files.Opened after home names) (way : files.IsOpen home names) :
    files.Keeps after := by
  intro place label shown
  by_cases on : OnTheWay home names place
  · refine ⟨.dir, (opened place).1 on, ?_⟩
    rcases way place on with absent | dir
    · simp [absent] at shown
    · obtain rfl : Label.dir = label := by simpa [dir] using shown
      exact .dir
  · exact ⟨label, by rw [(opened place).2 on, shown], .refl label⟩

/-- Where all directories are there already, nothing changes. -/
theorem of_label? (here : files.label? (home ++ names) = some .dir) :
    files.Opened files home names := by
  refine fun place => ⟨fun on => ?_, fun _ => rfl⟩
  obtain ⟨below, whole⟩ := on.2
  cases below with
  | nil => rw [← here, ← whole, List.append_nil]
  | cons name rest => exact label?_dir_of_below (by rw [whole, here]; simp) (List.cons_ne_nil _ _)

/-- One more directory. -/
theorem concat {last : FileSystem} (opened : files.Opened after home names)
    (update : last.label? =
      Function.update after.label? (home ++ names ++ [name]) (some .dir)) :
    files.Opened last home (names ++ [name]) := by
  intro place
  rw [onTheWay_concat, update]
  by_cases whole : place = home ++ names ++ [name]
  · subst whole
    simp
  · rw [Function.update_of_ne whole, or_iff_left whole]
    exact opened place

end Opened

/-! ## Missing directories -/

/-- On an open way to something that is missing there is a first thing that is missing. -/
theorem exists_missing (way : files.IsOpen home names) (here : files.label? home = some .dir)
    (absent : files.label? (home ++ names) = none) :
    ∃ front name back, names = front ++ name :: back ∧
      files.label? (home ++ front) = some .dir ∧
      files.label? (home ++ front ++ [name]) = none := by
  induction names using List.reverseRecOn with
  | nil => simp [here] at absent
  | append_singleton init name ih =>
      rcases way (home ++ init) (onTheWay_concat.mpr (.inl (onTheWay_self home init)))
        with missing | dir
      · obtain ⟨front, first, back, rfl, inside, free⟩ := ih way.init missing
        exact ⟨front, first, back ++ [name], by simp, inside, free⟩
      · exact ⟨init, name, [], rfl, dir, by rwa [List.append_assoc]⟩

/-- A directory is refused as missing if the one above it is missing. -/
theorem createDir_of_missing_above (check : checkPath path = .ok ())
    (cut : path.pieces = upper ++ names ++ [name]) (leads : files.LeadsTo upper home)
    (plain : ∀ other ∈ names, Name.IsPlain other)
    (short : ∀ other ∈ names, other.length ≤ nameLimit) (way : files.IsOpen home names)
    (missing : files.label? (home ++ names) = none) :
    files.createDir path = .error .notFound := by
  obtain ⟨front, first, back, rfl, inside, free⟩ :=
    exists_missing way leads.label?_home missing
  have cutFirst : path.pieces = (upper ++ front) ++ first :: (back ++ [name]) := by
    rw [cut]
    simp
  have member : first ∈ front ++ first :: back := by simp
  refine createDir_of_missing cutFirst ?_ (plain first member) check (short first member)
    (by simp) free
  exact leads.append (fun other inner => plain other (by simp [inner]))
    (fun other inner => short other (by simp [inner])) inside

/-- The directory of an accepted path has an accepted path, if it has one at all. -/
theorem checkPath_parent (check : checkPath path = .ok ()) (plain : path.IsPlain)
    (some : path.parent ≠ []) : checkPath path.parent = .ok () := by
  obtain ⟨noNul, -, bounded⟩ := checkPath_eq_ok_iff.mp check
  have part := plain.parent_sublist
  exact checkPath_eq_ok_iff.mpr ⟨fun nul => noNul (part.subset nul), some,
    Nat.le_trans part.length_le bounded⟩

theorem createDirAll_eq (some : path ≠ []) :
    files.createDirAll path = files.createChain (path :: path.ancestors) :=
  if_neg some

/-- A path that leads to a directory needs nothing more. -/
theorem createDirAll_of_leadsTo (check : checkPath path = .ok ())
    (leads : files.LeadsTo path.pieces home) : files.createDirAll path = (files, .ok ()) := by
  have isDir : files.isDir path = true := isDir_iff.mpr ⟨check, home, leads⟩
  rw [createDirAll_eq (checkPath_eq_ok_iff.mp check).2.1, createChain,
    createDir_of_leadsTo check leads]
  simp only [isDir, if_true]

/-- **A directory is made with all that are missing above it.** -/
theorem createDirAll_of_open (check : checkPath path = .ok ()) (plain : path.IsPlain)
    (cut : path.pieces = upper ++ names) (leads : files.LeadsTo upper home)
    (short : ∀ name ∈ names, name.length ≤ nameLimit) (way : files.IsOpen home names) :
    ∃ after, files.createDirAll path = (after, .ok ()) ∧ files.Opened after home names := by
  induction names using List.reverseRecOn generalizing path with
  | nil =>
      rw [List.append_nil] at cut
      rw [← cut] at leads
      exact ⟨files, createDirAll_of_leadsTo check leads,
        .of_label? (by simpa using leads.label?_home)⟩
  | append_singleton init name ih =>
      have some : path ≠ [] := (checkPath_eq_ok_iff.mp check).2.1
      have cut' : path.pieces = (upper ++ init) ++ [name] := by rw [cut, List.append_assoc]
      have plainAll : ∀ other ∈ init ++ [name], Name.IsPlain other := fun other member =>
        plain other (by rw [cut]; exact List.mem_append_right _ member)
      have plainInit : ∀ other ∈ init, Name.IsPlain other := fun other member =>
        plainAll other (List.mem_append_left _ member)
      have shortInit : ∀ other ∈ init, other.length ≤ nameLimit := fun other member =>
        short other (List.mem_append_left _ member)
      have plainName := plainAll name (List.mem_append_right _ List.mem_cons_self)
      have shortName := short name (List.mem_append_right _ List.mem_cons_self)
      rw [createDirAll_eq some, createChain]
      rcases way (home ++ init) (onTheWay_concat.mpr (.inl (onTheWay_self home init)))
        with missing | dir
      -- the directory above is missing too, and is made first
      · have refused :=
          createDir_of_missing_above check cut' leads plainInit shortInit way.init missing
        have inner : init ≠ [] := by
          rintro rfl
          simp [leads.label?_home] at missing
        have parentPieces : path.parent.pieces = upper ++ init := by
          rw [plain.pieces_parent, cut', List.dropLast_concat]
        have parentSome : path.parent ≠ [] := by
          intro none
          rw [none, PathText.pieces_nil] at parentPieces
          exact inner (List.append_eq_nil_iff.mp parentPieces.symm).2
        obtain ⟨above, made, opened⟩ := ih (checkPath_parent check plain parentSome)
          plain.parent_isPlain parentPieces shortInit way.init
        have chain : files.createChain path.ancestors = (above, .ok ()) := by
          rw [plain.ancestors_eq (by simp [cut]), if_neg parentSome, ← createDirAll_eq parentSome,
            made]
        have keeps := opened.keeps way.init
        have there := (opened _).1 (onTheWay_self home init)
        have still : above.label? (home ++ init ++ [name]) = none := by
          rw [(opened _).2 (not_onTheWay_below (List.cons_ne_nil _ _))]
          exact label?_below_of_ne_dir (by simp [missing]) (List.cons_ne_nil _ _)
        obtain ⟨last, createdLast, update⟩ := createDir_of_vacant cut'
          ((leads.mono keeps).append plainInit shortInit there) plainName check shortName still
        exact ⟨last, by simp only [refused, chain, createdLast], opened.concat update⟩
      · have leadsInit := leads.append plainInit shortInit dir
        rcases way _ (onTheWay_self home (init ++ [name])) with free | here
        · rw [← List.append_assoc] at free
          obtain ⟨last, createdLast, update⟩ :=
            createDir_of_vacant cut' leadsInit plainName check shortName free
          exact ⟨last, by simp only [createdLast], (Opened.of_label? dir).concat update⟩
        · have leadsAll := leads.append plainAll short here
          rw [← cut] at leadsAll
          have isDir : files.isDir path = true := isDir_iff.mpr ⟨check, _, leadsAll⟩
          refine ⟨files, ?_, .of_label? here⟩
          simp only [createDir_of_leadsTo check leadsAll, isDir, if_true]

/-- The same of a path that may be empty, and then needs no directory. -/
theorem createDirAll_opens (noNul : 0 ∉ path) (bounded : path.length ≤ pathLimit)
    (plain : path.IsPlain) (cut : path.pieces = upper ++ names)
    (leads : files.LeadsTo upper home) (short : ∀ name ∈ names, name.length ≤ nameLimit)
    (way : files.IsOpen home names) :
    ∃ after, files.createDirAll path = (after, .ok ()) ∧ files.Opened after home names := by
  by_cases nonempty : path = []
  · rw [nonempty, PathText.pieces_nil] at cut
    obtain ⟨-, rfl⟩ := List.append_eq_nil_iff.mp cut.symm
    exact ⟨files, if_pos nonempty, .of_label? (by simpa using leads.label?_home)⟩
  · exact createDirAll_of_open (checkPath_eq_ok_iff.mpr ⟨noNul, nonempty, bounded⟩) plain cut
      leads short way

/-! ## What was missing -/

/-- A walk for a name that is not there goes through the directory that lacks it. -/
theorem leadsTo_of_vacant {walk : Walk} {parent : Place}
    (arrives : Arrives files .keep walk (.ok (.vacant parent name)))
    (unslashed : walk.slashed = false) :
    ∃ front left, walk.pieces = front ++ [name] ∧
      ReflTransGen (Step files .follow) ⟨walk.links, true, walk.place, front⟩
        ⟨left, true, parent, []⟩ := by
  obtain ⟨last, steps, ends⟩ := arrives
  induction steps using ReflTransGen.head_induction_on with
  | refl =>
      cases ends with
      | vacant => exact ⟨[], _, rfl, .refl⟩
  | head step _ ih =>
      cases step with
      | dot =>
          obtain ⟨front, left, rfl, onward⟩ := ih unslashed
          exact ⟨_ :: front, left, rfl, .head .dot onward⟩
      | dotDot =>
          obtain ⟨front, left, rfl, onward⟩ := ih unslashed
          exact ⟨_ :: front, left, rfl, .head .dotDot onward⟩
      | enter look here =>
          obtain ⟨front, left, rfl, onward⟩ := ih unslashed
          exact ⟨_ :: front, left, rfl, .head (.enter (look.within (by simp)) here) onward⟩
      | @follow _ slashed _ _ rest target look here followed nonempty =>
          -- the link is not the last piece, for then it would be what is found
          obtain rfl : slashed = false := unslashed
          have more : rest ≠ [] := fun none => followed ⟨none, rfl, rfl⟩
          obtain ⟨init, last', rfl⟩ := (List.eq_nil_or_concat rest).resolve_left more
          obtain ⟨front, left, cut, onward⟩ := ih (by simp)
          obtain ⟨rfl, same⟩ : target.pieces ++ init = front ∧ last' = name := by
            rw [List.concat_eq_append, ← List.append_assoc] at cut
            simpa using List.append_inj' cut rfl
          refine ⟨_ :: init, left, ?_,
            .head (.follow (look.within (by simp)) here (by simp) nonempty) onward⟩
          rw [List.concat_eq_append, same]
          rfl

/-- A directory that was made is in one that was there, under a name that was free, and is all
that is new. -/
theorem createDir_vacant (made : files.createDir path = .ok after) :
    ∃ upper name home, path.pieces = upper ++ [name] ∧ files.LeadsTo upper home ∧
      name.IsPlain ∧ name.length ≤ nameLimit ∧ files.label? (home ++ [name]) = none ∧
      after.label? = Function.update files.label? (home ++ [name]) (some .dir) := by
  obtain ⟨parent, name, resolved, free, update⟩ := createDir_update made
  have arrives := (check_of_resolveNew resolved).2
  obtain ⟨upper, left, cut, steps⟩ := leadsTo_of_vacant arrives rfl
  have look : Mode.LooksUp .keep false name [] := by
    obtain ⟨last, -, ends⟩ := arrives
    cases ends with
    | vacant look => exact look.within (by simp)
  have cut : path.pieces = upper ++ [name] := cut
  have piece : name.IsPiece :=
    PathText.isPiece_of_mem_pieces (cut ▸ List.mem_append_right upper List.mem_cons_self)
  exact ⟨upper, name, parent, cut, ⟨left, steps⟩, ⟨piece, look.ne_dot, look.ne_dotDot⟩,
    look.short, free, update⟩

/-- A directory that was made is led to by its path. -/
theorem leadsTo_of_createDir (made : files.createDir path = .ok after) :
    ∃ home, after.LeadsTo path.pieces home := by
  obtain ⟨upper, name, home, cut, leads, plain, short, -, update⟩ := createDir_vacant made
  rw [cut]
  exact ⟨home ++ [name], (leads.mono (createDir_keeps made)).push plain short
    (by rw [update, Function.update_self])⟩

/-- A chain of directories ends well if the first is made at last, or is there at last. -/
theorem createChain_cons {above : List PathText}
    (made : files.createChain (path :: above) = (after, .ok ())) :
    (∃ middle, FileSystem.createDir middle path = .ok after) ∨ after.isDir path = true := by
  have there : ∀ {middle : FileSystem} {e : FileError},
      (middle, if middle.isDir path then Except.ok () else .error e) = (after, .ok ()) →
        after.isDir path = true := by
    intro middle e same
    obtain ⟨rfl, same⟩ := Prod.mk.inj same
    split at same
    · assumption
    · cases same
  rw [createChain] at made
  split at made
  · next created =>
    obtain ⟨rfl, -⟩ := Prod.mk.inj made
    exact .inl ⟨files, created⟩
  · split at made
    · cases made
    · next middle _ =>
      split at made
      · next created =>
        obtain ⟨rfl, -⟩ := Prod.mk.inj made
        exact .inl ⟨middle, created⟩
      · exact .inr (there made)
  · exact .inr (there made)

/-- **A path for which a directory was seen to leads to one.** -/
theorem leadsTo_of_createDirAll (made : files.createDirAll path = (after, .ok ()))
    (nonempty : path ≠ []) :
    checkPath path = .ok () ∧ ∃ home, after.LeadsTo path.pieces home := by
  rw [createDirAll_eq nonempty] at made
  rcases createChain_cons made with ⟨middle, created⟩ | isDir
  · obtain ⟨parent, name, resolved, -⟩ := createDir_update created
    exact ⟨(check_of_resolveNew resolved).1, leadsTo_of_createDir created⟩
  · exact isDir_iff.mp isDir

/-- **A directory that was seen to needs nothing more**, in every later tree. -/
theorem createDirAll_again {later : FileSystem}
    (made : files.createDirAll path = (after, .ok ())) (keeps : after.Keeps later) :
    later.createDirAll path = (later, .ok ()) := by
  by_cases nonempty : path = []
  · exact if_pos nonempty
  · obtain ⟨check, home, leads⟩ := leadsTo_of_createDirAll made nonempty
    exact createDirAll_of_leadsTo check (leads.mono keeps)

/-- Making directories is a row of granted requests, each for one of the paths. -/
theorem createChain_steps (files : FileSystem) (paths : List PathText) :
    ReflTransGen (fun before after => ∃ path ∈ paths, FileSystem.createDir before path = .ok after)
      files (files.createChain paths).1 := by
  induction paths with
  | nil => exact .refl
  | cons path rest ih =>
      have step : ∀ {before after : FileSystem}, before.createDir path = .ok after →
          ∃ other ∈ path :: rest, FileSystem.createDir before other = .ok after :=
        fun made => ⟨path, List.mem_cons_self, made⟩
      have further : ReflTransGen (fun before after =>
          ∃ other ∈ path :: rest, FileSystem.createDir before other = .ok after)
          files (files.createChain rest).1 :=
        ih.lift id fun _ _ ⟨other, member, made⟩ =>
          ⟨other, List.mem_cons_of_mem path member, made⟩
      rw [createChain]
      split
      · next made => exact .single (step made)
      · split
        · next failed => rwa [failed] at further
        · next chained =>
          rw [chained] at further
          split
          · next made => exact further.tail (step made)
          · exact further
      · exact .refl

/-- Making a directory and those above it comes to making single ones, each at a path on the
way. -/
theorem createDirAll_steps (files : FileSystem) (path : PathText) :
    ReflTransGen (fun before after =>
        ∃ other ∈ path :: path.ancestors, FileSystem.createDir before other = .ok after)
      files (files.createDirAll path).1 := by
  unfold createDirAll
  split
  · exact .refl
  · exact createChain_steps files _

/-- A name in a directory is never what a path is refused for as missing. -/
theorem createDir_ne_notFound (cut : path.pieces = upper ++ [name])
    (leads : files.LeadsTo upper home) (plain : name.IsPlain) (check : checkPath path = .ok ())
    (short : name.length ≤ nameLimit) : files.createDir path ≠ .error .notFound := by
  by_cases free : files.label? (home ++ [name]) = none
  · obtain ⟨after, made, -⟩ := createDir_of_vacant cut leads plain check short free
    simp [made]
  · have taken := resolveNew_of_taken cut leads plain check short free
    simp [createDir, taken]

/-- Of the names behind `home` not even the first is there. -/
def IsMissing (files : FileSystem) (home : Place) (names : List Name) : Prop :=
  ∀ name rest, names = name :: rest → files.label? (home ++ [name]) = none

/-- Where the first name is missing there is nothing at any place behind it. -/
theorem IsMissing.label? (missing : files.IsMissing home names) {below : Place}
    (nonempty : names ≠ []) (further : names <+: below) :
    files.label? (home ++ below) = none := by
  obtain ⟨name, rest, rfl⟩ := List.exists_cons_of_ne_nil nonempty
  obtain ⟨more, rfl⟩ := further
  have free := missing name rest rfl
  have whole : home ++ (name :: rest ++ more) = home ++ [name] ++ (rest ++ more) := by simp
  rw [whole]
  by_cases last : rest ++ more = []
  · rwa [last, List.append_nil]
  · exact label?_below_of_ne_dir (by simp [free]) last

/-- A way whose first name is missing is open: there is nothing on it to be in the way. -/
theorem IsMissing.isOpen (missing : files.IsMissing home names)
    (here : files.label? home = some .dir) : files.IsOpen home names := by
  rintro place ⟨⟨front, rfl⟩, within⟩
  have within := (List.prefix_append_right_inj home).mp within
  by_cases top : front = []
  · exact .inr (by simpa [top] using here)
  · obtain ⟨name, rest, rfl⟩ := List.exists_cons_of_ne_nil top
    obtain ⟨more, rfl⟩ := within
    have first : files.IsMissing home [name] := by
      rintro _ _ ⟨⟩
      exact missing name (rest ++ more) rfl
    exact .inl (first.label? (by simp) (by simp))

/-- **A directory that can be made with those above it** was missing from some name on. -/
theorem open_of_createDirAll (made : files.createDirAll path = (after, .ok ()))
    (plain : path.IsPlain) (noNul : 0 ∉ path) (bounded : path.length ≤ pathLimit)
    (short : ∀ name ∈ path.pieces, name.length ≤ nameLimit) :
    ∃ upper names home, path.pieces = upper ++ names ∧ files.LeadsTo upper home ∧
      files.IsMissing home names := by
  induction cut : path.pieces using List.reverseRecOn generalizing path after with
  | nil => exact ⟨[], [], [], rfl, leadsTo_nil files, by simp [IsMissing]⟩
  | append_singleton init last ih =>
      have nonempty : path ≠ [] := by
        rintro rfl
        simp at cut
      have check : checkPath path = .ok () :=
        checkPath_eq_ok_iff.mpr ⟨noNul, nonempty, bounded⟩
      have member : last ∈ path.pieces := by simp [cut]
      rw [createDirAll_eq nonempty, createChain] at made
      cases created : files.createDir path with
      | ok =>
          obtain ⟨upper, name, home, cut', leads, -, -, free, -⟩ := createDir_vacant created
          refine ⟨upper, [name], home, cut.symm.trans cut', leads, ?_⟩
          rintro _ _ ⟨⟩
          exact free
      | error e =>
          by_cases isMissing : e = .notFound
          -- something above is missing, or the path would not be refused like this
          · subst isMissing
            have openAbove : ∃ upper names home, init = upper ++ names ∧
                files.LeadsTo upper home ∧ files.IsMissing home names := by
              have parentPieces : path.parent.pieces = init := by
                rw [plain.pieces_parent, cut, List.dropLast_concat]
              by_cases top : path.parent = []
              · rw [top, PathText.pieces_nil] at parentPieces
                subst parentPieces
                exact ⟨[], [], [], rfl, leadsTo_nil files, by simp [IsMissing]⟩
              · simp only [created, plain.ancestors_eq (by simp [cut]), if_neg top,
                  ← createDirAll_eq top] at made
                have part := plain.parent_sublist
                split at made
                · cases made
                · next middle chained =>
                  refine ih chained plain.parent_isPlain (fun nul => noNul (part.subset nul))
                    (Nat.le_trans part.length_le bounded) (fun name inside => ?_) parentPieces
                  rw [plain.pieces_parent] at inside
                  exact short name (List.dropLast_subset _ inside)
            obtain ⟨upper, names, home, rfl, leads, missing⟩ := openAbove
            refine ⟨upper, names ++ [last], home, List.append_assoc _ _ _, leads, ?_⟩
            cases names with
            | nil =>
                rw [List.append_nil] at cut
                exact absurd created
                  (createDir_ne_notFound cut leads (plain last member) check (short last member))
            | cons name rest =>
                rintro _ _ ⟨⟩
                exact missing name rest rfl
          -- the directory was there already
          · have holds : files.isDir path = true := by
              simp only [created] at made
              split at made
              · assumption
              · cases made
            obtain ⟨-, home, leads⟩ := isDir_iff.mp holds
            rw [cut] at leads
            exact ⟨_, [], home, (List.append_nil _).symm, leads, by simp [IsMissing]⟩

/-- **What was done for a path that now leads to a directory**: from some name on it was missing,
and all that was missing has been made. -/
theorem opened_of_createDirAll (made : files.createDirAll path = (after, .ok ()))
    (plain : path.IsPlain) :
    0 ∉ path ∧ path.length ≤ pathLimit ∧
      ∃ upper names home, path.pieces = upper ++ names ∧ files.LeadsTo upper home ∧
        files.IsMissing home names ∧ files.Opened after home names ∧
        after.LeadsTo path.pieces (home ++ names) := by
  by_cases nonempty : path = []
  · subst nonempty
    obtain rfl : files = after := congrArg Prod.fst made
    exact ⟨by simp, Nat.zero_le _, [], [], [], rfl, leadsTo_nil files, by simp [IsMissing],
      .of_label? (label?_nil files), leadsTo_nil files⟩
  · obtain ⟨check, _, there⟩ := leadsTo_of_createDirAll made nonempty
    obtain ⟨noNul, -, bounded⟩ := checkPath_eq_ok_iff.mp check
    obtain ⟨upper, names, home, cut, leads, missing⟩ :=
      open_of_createDirAll made plain noNul bounded there.short
    have inner : ∀ name ∈ names, name ∈ path.pieces := fun name member => by simp [cut, member]
    have short : ∀ name ∈ names, name.length ≤ nameLimit := fun name member =>
      there.short name (inner name member)
    have way := missing.isOpen leads.label?_home
    obtain ⟨_, same, opened⟩ := createDirAll_opens noNul bounded plain cut leads short way
    obtain rfl := congrArg Prod.fst (made.symm.trans same)
    refine ⟨noNul, bounded, upper, names, home, cut, leads, missing, opened, ?_⟩
    rw [cut]
    exact (leads.mono (opened.keeps way)).append (fun name member => plain name (inner name member))
      short ((opened _).1 (onTheWay_self home names))

/-! ## A new directory -/

/-- Nothing is at `path`, and the directories above it can be made. -/
structure IsFree (files : FileSystem) (path : PathText) : Prop where
  plain : path.IsPlain
  check : checkPath path = .ok ()
  short : ∀ name ∈ path.pieces, name.length ≤ nameLimit
  vacant : ∀ place, files.resolveNew path ≠ .ok (.found place)
  above : (files.createDirAll path.parent).2 = .ok ()

namespace IsFree

/-- A name that the topmost directory does not have is free. -/
theorem of_name (entry : name.IsEntry) (absent : files.label? [name] = none) :
    files.IsFree name := by
  have cut : PathText.pieces name = [name] := PathText.pieces_of_isPiece entry.toIsPiece
  have plain : PathText.IsPlain name := by
    intro piece member
    rw [cut] at member
    obtain rfl := List.mem_singleton.mp member
    exact entry.toIsPlain
  have top : PathText.parent name = [] := by
    rw [PathText.parent, plain.components_eq, cut, PathText.isRooted_of_isPiece entry.toIsPiece]
    rfl
  refine ⟨plain, checkPath_name entry, fun piece member => ?_, fun place found => ?_, ?_⟩
  · rw [cut] at member
    obtain rfl := List.mem_singleton.mp member
    exact entry.short
  · rw [resolveNew_name entry absent] at found
    cases found
  · rw [top, FileSystem.createDirAll, if_pos rfl]

theorem pieces_ne_nil (free : files.IsFree path) : path.pieces ≠ [] := by
  intro none
  refine free.vacant [] (resolveNew_of_check free.check ?_)
  rw [none]
  exact Ends.arrived.arrives

/-- The path of a directory that can be made is missing from some name on. -/
theorem isMissing (free : files.IsFree path) :
    ∃ upper names home, path.pieces = upper ++ names ∧ files.LeadsTo upper home ∧
      names ≠ [] ∧ files.IsMissing home names := by
  obtain ⟨init, last, cut⟩ := (List.eq_nil_or_concat path.pieces).resolve_left free.pieces_ne_nil
  rw [List.concat_eq_append] at cut
  have member : last ∈ path.pieces := by simp [cut]
  have part := free.plain.parent_sublist
  obtain ⟨noNul, -, bounded⟩ := checkPath_eq_ok_iff.mp free.check
  have parentPieces : path.parent.pieces = init := by
    rw [free.plain.pieces_parent, cut, List.dropLast_concat]
  obtain ⟨upper, names, home, cutAbove, leads, missing⟩ :=
    open_of_createDirAll (Prod.ext rfl free.above) free.plain.parent_isPlain
      (fun nul => noNul (part.subset nul)) (Nat.le_trans part.length_le bounded)
      fun name inside => by
        rw [free.plain.pieces_parent] at inside
        exact free.short name (List.dropLast_subset _ inside)
  rw [parentPieces] at cutAbove
  subst cutAbove
  refine ⟨upper, names ++ [last], home, by rw [cut, List.append_assoc], leads, by simp, ?_⟩
  -- If all directories above are there, it is the last name that is missing.
  cases names with
  | nil =>
      rintro _ _ ⟨⟩
      by_contra taken
      rw [List.append_nil] at cut
      exact free.vacant _ (resolveNew_of_taken cut leads (free.plain last member) free.check
        (free.short last member) taken)
  | cons name rest =>
      rintro _ _ ⟨⟩
      exact missing name rest rfl

/-- **A directory that can be made** is made, and has nothing in it. -/
theorem createDirAll (free : files.IsFree path) :
    ∃ after home, files.createDirAll path = (after, .ok ()) ∧
      after.LeadsTo path.pieces home ∧ files.Keeps after ∧
      ∀ below, below ≠ [] → after.label? (home ++ below) = none := by
  obtain ⟨upper, names, home, cut, leads, nonempty, missing⟩ := free.isMissing
  have inner : ∀ name ∈ names, name ∈ path.pieces := fun name member => by simp [cut, member]
  have plainAll : ∀ name ∈ names, Name.IsPlain name := fun name member =>
    free.plain name (inner name member)
  have shortAll : ∀ name ∈ names, name.length ≤ nameLimit := fun name member =>
    free.short name (inner name member)
  have way : files.IsOpen home names := missing.isOpen leads.label?_home
  obtain ⟨after, made, opened⟩ :=
    createDirAll_of_open free.check free.plain cut leads shortAll way
  have keeps := opened.keeps way
  refine ⟨after, home ++ names, made, ?_, keeps, fun below lower => ?_⟩
  · rw [cut]
    exact (leads.mono keeps).append plainAll shortAll ((opened _).1 (onTheWay_self home names))
  · rw [(opened _).2 (not_onTheWay_below lower), List.append_assoc]
    exact missing.label? nonempty (List.prefix_append _ _)

end IsFree

end FileSystem

end FlatArchive
