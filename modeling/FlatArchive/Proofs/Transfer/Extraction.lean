import FlatArchive.Proofs.FileSystem.Chains
import FlatArchive.Proofs.Transfer.Effects
import FlatArchive.Proofs.Transfer.Routes
import Mathlib.Data.List.Pairwise

/-!
# What an extraction leaves

Records are written one after the other, and several of them may mean the same place.  As
long as none of these places would have to be a directory for another, and nothing in the
tree is in the way, every record is written, and what is there afterwards can be told from
the records alone: at each place the content of the last record that means it, above each
place a directory, and everywhere else what was there before (`Written`).

That is the invariant, with the records that were written so far.  One record more is one
step (`extractFile_written`), and a list of them is an induction (`extractEach_written`).

Into a new directory there is nothing in the way, and records that are apart do not share a
place, so a tree comes about that is described by the records (`extractAll_of_apart`).
-/

namespace FlatArchive

/-! ## The places that records mean -/

namespace FileRecord

/-- The names below a destination that the path of a record means. -/
def target? (record : FileRecord) : Option Place :=
  (targetNames record.path).toOption

/-- The places below a destination that some records mean. -/
def targets (records : List FileRecord) : List Place :=
  records.filterMap target?

/-- The records among some that mean one place, in their order. -/
def meaning (records : List FileRecord) (names : Place) : List FileRecord :=
  records.filter fun record => record.target? = some names

/-- A file system takes the path that the names of a record make below a destination. -/
structure IsAccepted (destination : PathText) (record : FileRecord) (names : Place) : Prop where
  target : record.target? = some names
  noNul : ∀ name ∈ names, (0 : UInt8) ∉ name
  short : ∀ name ∈ names, name.length ≤ nameLimit
  bounded : (destination.extend names).length ≤ pathLimit

variable {records done : List FileRecord} {record : FileRecord} {names : Place}

theorem target?_eq_some_iff :
    record.target? = some names ↔ targetNames record.path = .ok names := by
  unfold target?
  cases targetNames record.path with
  | error e => simp [Except.toOption]
  | ok other => simp [Except.toOption]

theorem mem_targets : names ∈ targets records ↔ ∃ record ∈ records, record.target? = some names :=
  List.mem_filterMap

theorem targets_append : targets (done ++ records) = targets done ++ targets records :=
  List.filterMap_append

theorem targets_singleton (target : record.target? = some names) : targets [record] = [names] := by
  simp [targets, target]

theorem mem_meaning {other : FileRecord} :
    other ∈ meaning records names ↔ other ∈ records ∧ other.target? = some names := by
  simp [meaning]

/-- One more record that means a place is the last one to do so. -/
theorem meaning_concat_self (target : record.target? = some names) :
    meaning (done ++ [record]) names = meaning done names ++ [record] := by
  simp [meaning, target]

theorem meaning_concat_of_ne {other : Place} (target : record.target? = some names)
    (distinct : names ≠ other) : meaning (done ++ [record]) other = meaning done other := by
  simp [meaning, target, distinct]

/-- A place that is meant is meant by a last record. -/
theorem exists_last (member : names ∈ targets records) :
    ∃ record, (meaning records names).getLast? = some record := by
  obtain ⟨record, inside, target⟩ := mem_targets.mp member
  have nonempty : meaning records names ≠ [] :=
    List.ne_nil_of_mem (mem_meaning.mpr ⟨inside, target⟩)
  exact ⟨_, List.getLast?_eq_some_getLast nonempty⟩

end FileRecord

/-- A record of a file that can be below `destination`. -/
structure FileRecord.FitsBelow (destination : PathText) (record : FileRecord) : Prop where
  nonempty : record.route ≠ []
  entry : ∀ name ∈ record.route, name.IsEntry
  bounded : (destination.extend record.route).length ≤ pathLimit

/-- A record that fits means its route. -/
theorem FileRecord.FitsBelow.isAccepted {destination : PathText} {record : FileRecord}
    (fits : record.FitsBelow destination) : record.IsAccepted destination record.route where
  target := target?_eq_some_iff.mpr (targetNames_path fits.nonempty fits.entry)
  noNul name member := (fits.entry name member).noNul
  short name member := (fits.entry name member).short
  bounded := fits.bounded

namespace FileSystem

open FileRecord

variable {before files middle after : FileSystem} {destination : PathText} {home : Place}
  {records done : List FileRecord} {record : FileRecord} {names : Place} {all : List Place}

/-! ## One record more -/

/-- Nothing is in the way of files at some places below `home`. -/
structure HasRoom (files : FileSystem) (home : Place) (all : List Place) : Prop where
  file : ∀ names ∈ all, files.label? (home ++ names) = none ∨
    ∃ old, files.label? (home ++ names) = some (.file old)
  above : ∀ names ∈ all, ∀ front, front <+: names → front ≠ names →
    files.label? (home ++ front) = none ∨ files.label? (home ++ front) = some .dir

/-- What writing some records below `home` makes of a tree. -/
structure Written (before after : FileSystem) (home : Place) (records : List FileRecord) :
    Prop where
  file : ∀ names record, (meaning records names).getLast? = some record →
    after.label? (home ++ names) = some (.file record.data)
  dir : ∀ names ∈ targets records, ∀ front, front <+: names → front ≠ names →
    after.label? (home ++ front) = some .dir
  rest : ∀ place, (∀ names ∈ targets records, ¬ OnTheWay home names place) →
    after.label? place = before.label? place

namespace Written

theorem nil (files : FileSystem) (home : Place) : Written files files home [] where
  file := by simp [meaning]
  dir := by simp [targets]
  rest _ _ := rfl

section Next

variable (apart : ∀ names ∈ all, ∀ others ∈ all, names <+: others → names = others)
  (member : names ∈ all)

include apart member

/-- Above a record there are only directories, or nothing yet. -/
theorem isOpen (written : Written before files home done) (room : before.HasRoom home all)
    (inside : ∀ others ∈ targets done, others ∈ all) (nonempty : names ≠ []) :
    files.IsOpen home names.dropLast := by
  rintro place on
  obtain ⟨front, rfl⟩ := on.1
  obtain ⟨prefixed, proper⟩ := (onTheWay_dropLast nonempty).mp on
  by_cases made : ∃ others ∈ targets done, front <+: others
  · obtain ⟨others, old, further⟩ := made
    refine .inr (written.dir others old front further ?_)
    rintro rfl
    exact proper (apart front (inside front old) names member prefixed)
  · push Not at made
    rw [written.rest (home ++ front) fun others old on =>
      made others old ((List.prefix_append_right_inj home).mp on.2)]
    exact room.above names member front prefixed proper

/-- At the place of a record there is a file, or nothing yet. -/
theorem isFileOrNone (written : Written before files home done) (room : before.HasRoom home all)
    (inside : ∀ others ∈ targets done, others ∈ all) :
    files.label? (home ++ names) = none ∨
      ∃ old, files.label? (home ++ names) = some (.file old) := by
  by_cases made : ∃ others ∈ targets done, names <+: others
  · obtain ⟨others, old, further⟩ := made
    obtain rfl := apart names member others (inside others old) further
    obtain ⟨last, isLast⟩ := exists_last old
    exact .inr ⟨last.data, written.file names last isLast⟩
  · push Not at made
    rw [written.rest (home ++ names) fun others old on =>
      made others old ((List.prefix_append_right_inj home).mp on.2)]
    exact room.file names member

/-- One more file, with the directories above it. -/
theorem concat (written : Written before files home done)
    (inside : ∀ others ∈ targets done, others ∈ all) (target : record.target? = some names)
    (nonempty : names ≠ []) (opened : files.Opened middle home names.dropLast)
    (update : after.label? = Function.update middle.label? (home ++ names)
      (some (.file record.data))) :
    Written before after home (done ++ [record]) := by
  -- all that is new are the file and the directories above it
  have elsewhere : ∀ route, route ≠ names → after.label? (home ++ route) =
      middle.label? (home ++ route) := fun route other => by
    rw [update, Function.update_of_ne (by simpa using other)]
  have above : ∀ route, OnTheWay home names.dropLast (home ++ route) ↔
      route <+: names ∧ route ≠ names := fun route => onTheWay_dropLast nonempty
  constructor
  · intro others last isLast
    by_cases same : names = others
    · subst same
      rw [meaning_concat_self target, List.getLast?_concat, Option.some.injEq] at isLast
      rw [update, Function.update_self, isLast]
    · rw [meaning_concat_of_ne target same] at isLast
      have old : others ∈ targets done :=
        mem_targets.mpr ⟨last, mem_meaning.mp (List.mem_of_getLast? isLast)⟩
      have off : ¬ OnTheWay home names.dropLast (home ++ others) := fun on =>
        same (apart others (inside others old) names member ((above others).mp on).1).symm
      rw [elsewhere others (Ne.symm same), (opened _).2 off]
      exact written.file others last isLast
  · intro others meant front prefixed proper
    rw [targets_append, targets_singleton target, List.mem_append, List.mem_singleton] at meant
    by_cases on : OnTheWay home names.dropLast (home ++ front)
    · rw [elsewhere front ((above front).mp on).2]
      exact (opened _).1 on
    · rcases meant with old | rfl
      · have distinct : front ≠ names := by
          rintro rfl
          exact proper (apart front member others (inside others old) prefixed)
        rw [elsewhere front distinct, (opened _).2 on]
        exact written.dir others old front prefixed proper
      · exact absurd ((above front).mpr ⟨prefixed, proper⟩) on
  · intro place beside
    simp only [targets_append, targets_singleton target, List.mem_append,
      List.mem_singleton] at beside
    have besideNew := beside names (.inr rfl)
    have other : place ≠ home ++ names := by
      rintro rfl
      exact besideNew (onTheWay_self home names)
    have off : ¬ OnTheWay home names.dropLast place := fun on =>
      besideNew ⟨on.1, on.2.trans
        ((List.prefix_append_right_inj home).mpr (List.dropLast_prefix names))⟩
    rw [update, Function.update_of_ne other, (opened _).2 off]
    exact written.rest place fun others old => beside others (.inl old)

end Next

/-- What writing makes of a tree depends only on the order of records with one place. -/
theorem label?_eq {reordered : List FileRecord} {after' : FileSystem}
    (written : Written before after home records) (written' : Written before after' home reordered)
    (same : ∀ names, meaning reordered names = meaning records names) :
    after'.label? = after.label? := by
  have meant : ∀ names, names ∈ targets reordered ↔ names ∈ targets records := by
    intro names
    simp only [mem_targets, ← mem_meaning, same]
  funext place
  by_cases on : ∃ names ∈ targets records, OnTheWay home names place
  · obtain ⟨names, member, ⟨front, rfl⟩, within⟩ := on
    have prefixed := (List.prefix_append_right_inj home).mp within
    by_cases whole : front = names
    · subst whole
      obtain ⟨last, isLast⟩ := exists_last member
      rw [written.file front last isLast, written'.file front last (by rw [same, isLast])]
    · rw [written.dir names member front prefixed whole,
        written'.dir names ((meant names).mpr member) front prefixed whole]
  · push Not at on
    rw [written.rest place on,
      written'.rest place fun names member => on names ((meant names).mp member)]

end Written

/-- **One record more** is written below a directory. -/
theorem extractFile_written (plain : destination.IsPlain) (noNul : 0 ∉ destination)
    (leads : files.LeadsTo destination.pieces home) (written : Written before files home done)
    (room : before.HasRoom home all)
    (apart : ∀ names ∈ all, ∀ others ∈ all, names <+: others → names = others)
    (inside : ∀ others ∈ targets done, others ∈ all)
    (accepted : record.IsAccepted destination names)
    (member : names ∈ all) :
    ∃ after log, files.extractFile destination record.path record.data = ⟨after, log, .ok ()⟩ ∧
      after.LeadsTo destination.pieces home ∧ Written before after home (done ++ [record]) := by
  have meant := target?_eq_some_iff.mp accepted.target
  have plainAll := isPlain_of_targetNames meant
  have nonempty : names ≠ [] := (targetNames_eq_ok_iff.mp meant).2.2
  obtain ⟨init, last, rfl⟩ := (List.eq_nil_or_concat names).resolve_left nonempty
  rw [List.concat_eq_append] at *
  have above : (init ++ [last]).dropLast = init := List.dropLast_concat
  have inner : ∀ name ∈ init, name ∈ init ++ [last] := fun name => List.mem_append_left _
  have atEnd : last ∈ init ++ [last] := by simp
  have plainInit : ∀ name ∈ init, name.IsPlain := fun name member =>
    plainAll name (inner name member)
  have shortInit : ∀ name ∈ init, name.length ≤ nameLimit := fun name member =>
    accepted.short name (inner name member)
  have target : destination.extend (init ++ [last]) = (destination.extend init).push last :=
    PathText.extend_concat _ _ _
  have check : checkPath (destination.extend (init ++ [last])) = .ok () :=
    checkPath_extend noNul (PathText.extend_ne_nil (fun name member =>
      (plainAll name member).toIsPiece) nonempty) accepted.noNul accepted.bounded
  have piecesAbove : (destination.extend init).pieces = destination.pieces ++ init :=
    PathText.pieces_extend fun name member => (plainInit name member).toIsPiece
  have pieces : (destination.extend (init ++ [last])).pieces =
      destination.pieces ++ init ++ [last] := by
    rw [target, PathText.pieces_push (plainAll last atEnd).toIsPiece, piecesAbove]
  -- the directories above the file
  have way : files.IsOpen home init := by
    have way := written.isOpen apart member room inside nonempty
    rwa [above] at way
  have part : destination.extend init <+: destination.extend (init ++ [last]) := by
    rw [target]
    exact PathText.prefix_push _ _
  obtain ⟨noNulTarget, -, -⟩ := checkPath_eq_ok_iff.mp check
  obtain ⟨middle, made, opened⟩ := createDirAll_opens (fun nul => noNulTarget (part.subset nul))
    (Nat.le_trans part.length_le accepted.bounded) (plain.extend plainInit) piecesAbove leads
    shortInit way
  have keeps := opened.keeps way
  have leadsAbove : middle.LeadsTo (destination.pieces ++ init) (home ++ init) :=
    (leads.mono keeps).append plainInit shortInit ((opened _).1 (onTheWay_self home init))
  -- the file itself
  have free : middle.label? (home ++ init ++ [last]) = none ∨
      ∃ old, middle.label? (home ++ init ++ [last]) = some (.file old) := by
    rw [(opened _).2 (not_onTheWay_below (List.cons_ne_nil _ _)), List.append_assoc]
    exact written.isFileOrNone apart member room inside
  have unslashed : (destination.extend (init ++ [last])).endsInSlash = false := by
    rw [target]
    exact PathText.endsInSlash_push (plainAll last atEnd).toIsPiece
  obtain ⟨after, wrote, update⟩ := writeFile_of_open pieces leadsAbove (plainAll last atEnd) check
    (accepted.short last atEnd) unslashed free record.data
  have extracted := extractFile_eq_ok_iff.mpr
    ⟨init ++ [last], middle, meant, above.symm ▸ made, wrote, rfl⟩
  refine ⟨after, _, extracted, (leads.mono keeps).mono (writeFile_keeps wrote), ?_⟩
  refine written.concat apart member inside accepted.target nonempty (above.symm ▸ opened) ?_
  rw [update, List.append_assoc]

/-- **Records** are written one after the other. -/
theorem extractEach_written (plain : destination.IsPlain) (noNul : 0 ∉ destination)
    (leads : files.LeadsTo destination.pieces home) (written : Written before files home done)
    (records : List FileRecord)
    (room : before.HasRoom home (targets (done ++ records)))
    (apart : ∀ names ∈ targets (done ++ records), ∀ others ∈ targets (done ++ records),
      names <+: others → names = others)
    (accepted : ∀ record ∈ records, ∃ names, record.IsAccepted destination names) :
    ∃ after log,
      files.extractEach destination FileRecord.path FileRecord.data records =
        ⟨after, log, .ok ()⟩ ∧
      after.LeadsTo destination.pieces home ∧ Written before after home (done ++ records) := by
  induction records generalizing files done with
  | nil => exact ⟨files, [], rfl, leads, by rwa [List.append_nil]⟩
  | cons record rest ih =>
      obtain ⟨names, here⟩ := accepted record List.mem_cons_self
      have member : names ∈ targets (done ++ record :: rest) :=
        mem_targets.mpr ⟨record, by simp, here.target⟩
      have inside : ∀ others ∈ targets done, others ∈ targets (done ++ record :: rest) := by
        intro others old
        rw [targets_append]
        exact List.mem_append_left _ old
      obtain ⟨middle, log, first, leads, written⟩ :=
        extractFile_written plain noNul leads written room apart inside here member
      rw [List.append_cons] at room apart ⊢
      obtain ⟨after, more, others, leads, written⟩ := ih leads written room apart
        fun other later => accepted other (List.mem_cons_of_mem _ later)
      exact ⟨after, log ++ more,
        extractEach_cons_eq_ok_iff.mpr ⟨middle, log, more, first, others, rfl⟩, leads, written⟩

/-- **A whole extraction** is seeing to the destination and then writing the records. -/
theorem extractAll_written (plain : destination.IsPlain) (noNul : 0 ∉ destination)
    (made : files.createDirAll destination = (middle, .ok ()))
    (leads : middle.LeadsTo destination.pieces home) (room : middle.HasRoom home (targets records))
    (apart : ∀ names ∈ targets records, ∀ others ∈ targets records,
      names <+: others → names = others)
    (accepted : ∀ record ∈ records, ∃ names, record.IsAccepted destination names) :
    (files.extractAll destination records).result = .ok () ∧
      (files.extractAll destination records).files.LeadsTo destination.pieces home ∧
      Written middle (files.extractAll destination records).files home records := by
  obtain ⟨after, log, extracted, leads, written⟩ :=
    extractEach_written plain noNul leads (.nil middle home) records room apart accepted
  rw [extractAll_eq_ok_iff.mpr ⟨middle, made, extracted⟩]
  exact ⟨rfl, leads, written⟩

/-! ## A new directory -/

/-- Below `home` there are the files of some records, the directories above them, and
nothing else. -/
structure Unpacked (files : FileSystem) (home : Place) (done : List FileRecord) : Prop where
  file : ∀ record ∈ done, files.label? (home ++ record.route) = some (.file record.data)
  dir : ∀ record ∈ done, ∀ route, route <+: record.route → route ≠ record.route →
    files.label? (home ++ route) = some .dir
  absent : ∀ route, route ≠ [] → (∀ record ∈ done, ¬ route <+: record.route) →
    files.label? (home ++ route) = none

/-- **Records that are apart are extracted to a new directory**, and what is there then is
what they say. -/
theorem extractAll_of_apart (free : files.IsFree destination) {records : List FileRecord}
    (fits : ∀ record ∈ records, record.FitsBelow destination)
    (apart : records.Pairwise fun a b => a.route.Apart b.route) :
    (files.extractAll destination records).result = .ok () ∧
      ∃ home, (files.extractAll destination records).files.LeadsTo destination.pieces home ∧
        (files.extractAll destination records).files.Unpacked home records := by
  obtain ⟨middle, home, made, leads, -, bare⟩ := free.createDirAll
  obtain ⟨noNul, -, -⟩ := checkPath_eq_ok_iff.mp free.check
  have target : ∀ record ∈ records, record.target? = some record.route := fun record member =>
    (fits record member).isAccepted.target
  have routes : ∀ names ∈ targets records, ∃ record ∈ records, record.route = names := by
    intro names meant
    obtain ⟨record, member, same⟩ := mem_targets.mp meant
    exact ⟨record, member, Option.some.inj ((target record member).symm.trans same)⟩
  have distinct : ∀ a ∈ records, ∀ b ∈ records, a.route <+: b.route → a = b := by
    intro a first b second front
    by_contra other
    have symmetric : Std.Symm fun a b : FileRecord => a.route.Apart b.route :=
      ⟨fun _ _ => Place.Apart.symm⟩
    exact (apart.forall first second other).1 front
  have nonempty : ∀ names ∈ targets records, names ≠ [] := by
    intro names meant
    obtain ⟨record, member, rfl⟩ := routes names meant
    exact (fits record member).nonempty
  have room : middle.HasRoom home (targets records) := by
    refine ⟨fun names meant => .inl (bare names (nonempty names meant)),
      fun names meant front prefixed proper => ?_⟩
    by_cases top : front = []
    · exact .inr (by simpa [top] using leads.label?_home)
    · exact .inl (bare front top)
  -- Routes that lie apart are in each other's way neither as files nor as directories, and each
  -- is the route of one record only, so the last record that means a place is the only one.
  obtain ⟨result, leads, written⟩ := extractAll_written free.plain noNul made leads room
    (by
      intro names meant others meant' front
      obtain ⟨a, first, rfl⟩ := routes names meant
      obtain ⟨b, second, rfl⟩ := routes others meant'
      rw [distinct a first b second front])
    fun record member => ⟨_, (fits record member).isAccepted⟩
  have inTargets : ∀ record ∈ records, record.route ∈ targets records := fun record member =>
    mem_targets.mpr ⟨record, member, target record member⟩
  refine ⟨result, home, leads, ⟨fun record member => ?_, fun record member => ?_,
    fun route lower beside => ?_⟩⟩
  · obtain ⟨last, isLast⟩ := exists_last (inTargets record member)
    obtain ⟨inside, same⟩ := mem_meaning.mp (List.mem_of_getLast? isLast)
    have routes_eq : last.route = record.route :=
      Option.some.inj ((target last inside).symm.trans same)
    obtain rfl := distinct last inside record member (routes_eq ▸ List.prefix_refl _)
    exact written.file _ last isLast
  · exact written.dir record.route (inTargets record member)
  · have still := written.rest (home ++ route) fun names meant on => by
      obtain ⟨record, member, rfl⟩ := routes names meant
      exact beside record member ((List.prefix_append_right_inj home).mp on.2)
    rw [still]
    exact bare route lower

end FileSystem

end FlatArchive
