import FlatArchive.Proofs.Transfer.Collection

/-!
# What a walk says of every entry

A walk that passes over links comes to every file below its root, in the order of the names
that lead there, and takes each of them up.  It stops only at a file whose names are no text,
or where a path gets too long to be asked for (`Findings.Accounts`).

What is said of a directory is said of the list of entries that is left of it, so that a step
is one entry (`Findings.Accounts.andThen`), and the walk is one induction
(`walkEntries_accounts`).
-/

namespace FlatArchive

variable {names : List Name} {name : Name} {node : Node} {entries inner rest : Entries}
  {item : Name × Node} {root : PathText} {route : Place} {first findings : Findings}
  {next : Unit → Findings} {files : FileSystem} {e : IoError}

/-! ## Behind the entries of a directory -/

namespace Entries

/-- Behind some entries of a directory, names lead to a node. -/
def Lead (entries : Entries) (route : Place) (node : Node) : Prop :=
  ∃ item ∈ entries, ∃ below, route = item.1 :: below ∧ item.2.descend below = some node

theorem lead_cons :
    Lead (item :: rest) route node ↔ Lead [item] route node ∨ rest.Lead route node := by
  simp only [Lead, List.mem_cons, List.not_mem_nil, or_false, exists_eq_left, exists_eq_or_imp]

theorem lead_inOrder : entries.inOrder.Lead route node ↔ entries.Lead route node := by
  simp only [Lead, mem_inOrder]

/-- A file or a link is where its own name leads, and has nothing behind it. -/
theorem lead_leaf {leaf : Node} (leafNode : ∀ inner, leaf ≠ .dir inner) :
    Lead [(name, leaf)] route node ↔ route = [name] ∧ node = leaf := by
  simp only [Lead, List.mem_singleton, exists_eq_left]
  constructor
  · rintro ⟨below, rfl, found⟩
    cases below with
    | nil => exact ⟨rfl, by simpa [eq_comm] using found⟩
    | cons other more =>
        cases leaf with
        | dir inner => exact absurd rfl (leafNode inner)
        | file data => simp [Node.descend] at found
        | link target => simp [Node.descend] at found
  · rintro ⟨rfl, rfl⟩
    exact ⟨[], rfl, Node.descend_nil _⟩

namespace WellFormed

/-- Below a directory is what its entries lead to. -/
theorem descend_dir_eq_iff (wellFormed : inner.WellFormed) (lower : route ≠ []) :
    (Node.dir inner).descend route = some node ↔ inner.Lead route node := by
  obtain ⟨name, below, rfl⟩ := List.exists_cons_of_ne_nil lower
  rw [Node.descend_dir_cons, Option.bind_eq_some_iff]
  constructor
  · rintro ⟨child, found, further⟩
    exact ⟨(name, child), wellFormed.lookup_iff.mp found, below, rfl, further⟩
  · rintro ⟨⟨_, child⟩, member, _, ⟨⟩, further⟩
    exact ⟨child, wellFormed.lookup_iff.mpr member, further⟩

/-- Names that lead to something are names that directories can hold. -/
theorem isEntry_of_lead (wellFormed : entries.WellFormed) (leads : entries.Lead route node) :
    ∀ name ∈ route, name.IsEntry := by
  obtain ⟨⟨name, child⟩, member, below, rfl, found⟩ := leads
  exact List.forall_mem_cons.mpr ⟨wellFormed.entry member,
    Node.WellFormed.isEntry_of_descend (wellFormed.inner member) found⟩

/-- A single directory leads to itself, and to what its own entries lead to. -/
theorem lead_dir (wellFormed : inner.WellFormed) :
    Lead [(name, .dir inner)] route node ↔
      route = [name] ∧ node = .dir inner ∨
        ∃ below, route = name :: below ∧ inner.Lead below node := by
  simp only [Lead, List.mem_singleton, exists_eq_left]
  constructor
  · rintro ⟨below, rfl, found⟩
    by_cases top : below = []
    · subst top
      exact .inl ⟨rfl, by simpa [eq_comm] using found⟩
    · exact .inr ⟨below, rfl, (wellFormed.descend_dir_eq_iff top).mp found⟩
  · rintro (⟨rfl, rfl⟩ | ⟨below, rfl, leads⟩)
    · exact ⟨[], rfl, Node.descend_nil _⟩
    · have lower : below ≠ [] := by
        obtain ⟨item, -, further, rfl, -⟩ := leads
        exact List.cons_ne_nil _ _
      exact ⟨below, rfl, (wellFormed.descend_dir_eq_iff lower).mpr leads⟩

/-- In order, each name is less than those behind it. -/
theorem pairwise_inOrder (wellFormed : entries.WellFormed) :
    entries.inOrder.Pairwise fun a b => a.1 < b.1 := by
  have sorted : entries.inOrder.Pairwise fun a b => a.1 ≤ b.1 := by
    have pairwise : (entries.mergeSort fun a b => a.1 ≤ b.1).Pairwise fun a b =>
        decide (a.1 ≤ b.1) = true :=
      List.pairwise_mergeSort (fun a b c => by simpa using List.le_trans)
        (fun a b => by simpa using List.le_total a.1 b.1) entries
    simpa [Entries.inOrder] using pairwise
  have distinct : entries.inOrder.Pairwise fun a b => a.1 ≠ b.1 :=
    List.pairwise_map.mp wellFormed.inOrder.distinct
  refine (sorted.and distinct).imp fun both => ?_
  exact (List.le_iff_lt_or_eq.mp both.1).resolve_right both.2

end WellFormed

end Entries

/-! ## What a walk says of them -/

namespace Findings

/-- Every file behind some entries was taken up, in the order of the names that lead there, and
nothing else; `names` lead from `root` to the directory. -/
structure Whole (root : PathText) (names : List Name) (entries : Entries) (findings : Findings) :
    Prop where
  ended : findings.failure = none
  text : ∀ route data, entries.Lead route (.file data) →
    ∃ text, FileSystem.relativePath (names ++ route) = .ok text
  exact : ∀ record, record ∈ findings.records ↔ ∃ route text data,
    entries.Lead route (.file data) ∧ FileSystem.relativePath (names ++ route) = .ok text ∧
      record = .ofFile text data
  ordered : findings.records.Pairwise fun a b => a.route < b.route
  bounded : ∀ route node, entries.Lead route node → (∀ target, node ≠ .link target) →
    (root.extend (names ++ route)).length ≤ pathLimit

/-- Why a walk stops, if it passes over links. -/
inductive Stops (root : PathText) (names : List Name) (entries : Entries) : IoError → Prop
  | notText {route : Place} {data : Bytes} (leads : entries.Lead route (.file data)) {name : Name}
      (member : name ∈ names ++ route) (noText : ¬ name.IsText) :
      Stops root names entries (.pathNotText (PathText.join (names ++ route)))
  | file {route : Place} {data : Bytes} (leads : entries.Lead route (.file data))
      (long : pathLimit < (root.extend (names ++ route)).length) :
      Stops root names entries (.file .nameTooLong)
  | directory {route : Place} {inner : Entries} (leads : entries.Lead route (.dir inner))
      (long : pathLimit < (root.extend (names ++ route)).length) :
      Stops root names entries (.walk (root.extend (names ++ route)) .nameTooLong)

/-- A walk took up every file behind some entries, or says why it stopped. -/
def Accounts (root : PathText) (names : List Name) (entries : Entries) (findings : Findings) :
    Prop :=
  findings.Whole root names entries ∨
    ∃ e, findings.failure = some e ∧ Stops root names entries e

/-- What stops a walk behind some entries stops one that comes to all of these. -/
theorem Stops.mono {more : Entries} {above : List Name} (stops : Stops root names entries e)
    (subset : ∀ route node, entries.Lead route node →
      ∃ route', more.Lead route' node ∧ names ++ route = above ++ route') :
    Stops root above more e := by
  cases stops with
  | notText leads member noText =>
      obtain ⟨route', leads, same⟩ := subset _ _ leads
      rw [same] at member ⊢
      exact .notText leads member noText
  | file leads long =>
      obtain ⟨route', leads, same⟩ := subset _ _ leads
      exact .file leads (same ▸ long)
  | directory leads long =>
      obtain ⟨route', leads, same⟩ := subset _ _ leads
      rw [same] at long ⊢
      exact .directory leads long

namespace Whole

/-- The names that lead to what was taken up. -/
theorem exists_route (whole : findings.Whole root names entries)
    (entry : ∀ route node, entries.Lead route node → ∀ name ∈ names ++ route, name.IsEntry)
    {record : FileRecord} (member : record ∈ findings.records) :
    ∃ item ∈ entries, ∃ below, record.route = names ++ item.1 :: below := by
  obtain ⟨route, text, data, leads, made, rfl⟩ := (whole.exact record).mp member
  have isPiece : ∀ name ∈ names ++ route, name.IsPiece := fun name inside =>
    (entry route _ leads name inside).toIsPiece
  rw [FileRecord.route_ofFile data made isPiece]
  obtain ⟨item, inside, below, rfl, -⟩ := leads
  exact ⟨item, inside, below, rfl⟩

/-- A file is all that is behind its entry. -/
theorem file {text : String} (made : FileSystem.relativePath (names ++ [name]) = .ok text)
    (bounded : (root.extend (names ++ [name])).length ≤ pathLimit) (data : Bytes) :
    Whole root names [(name, .file data)] { records := [.ofFile text data] } := by
  refine ⟨rfl, fun route data leads => ?_, fun record => ?_, List.pairwise_singleton _ _,
    fun route node leads _ => ?_⟩
  · obtain ⟨rfl, -⟩ := (Entries.lead_leaf (by simp)).mp leads
    exact ⟨text, made⟩
  · constructor
    · intro member
      exact ⟨[name], text, data, (Entries.lead_leaf (by simp)).mpr ⟨rfl, rfl⟩, made,
        List.mem_singleton.mp member⟩
    · rintro ⟨route, text', data', leads, made', rfl⟩
      obtain ⟨rfl, same⟩ := (Entries.lead_leaf (by simp)).mp leads
      obtain rfl := Node.file.inj same
      obtain rfl := Except.ok.inj (made.symm.trans made')
      exact List.mem_singleton.mpr rfl
  · obtain ⟨rfl, -⟩ := (Entries.lead_leaf (by simp)).mp leads
    exact bounded

/-- All files behind the entries of a directory are all files behind the directory. -/
theorem directory (wellFormed : inner.WellFormed)
    (bounded : (root.extend (names ++ [name])).length ≤ pathLimit)
    (whole : findings.Whole root (names ++ [name]) inner.inOrder) :
    findings.Whole root names [(name, .dir inner)] := by
  have shift : ∀ below : Place, names ++ name :: below = names ++ [name] ++ below := by simp
  refine ⟨whole.ended, fun route data leads => ?_, fun record => ?_, whole.ordered,
    fun route node leads noLink => ?_⟩
  · rcases wellFormed.lead_dir.mp leads with ⟨-, isFile⟩ | ⟨below, rfl, further⟩
    · cases isFile
    · rw [shift]
      exact whole.text below data (Entries.lead_inOrder.mpr further)
  · rw [whole.exact]
    constructor
    · rintro ⟨below, text, data, leads, made, rfl⟩
      refine ⟨name :: below, text, data, ?_, by rwa [shift], rfl⟩
      exact wellFormed.lead_dir.mpr (.inr ⟨below, rfl, Entries.lead_inOrder.mp leads⟩)
    · rintro ⟨route, text, data, leads, made, rfl⟩
      rcases wellFormed.lead_dir.mp leads with ⟨-, isFile⟩ | ⟨below, rfl, further⟩
      · cases isFile
      · exact ⟨below, text, data, Entries.lead_inOrder.mpr further, by rwa [shift] at made, rfl⟩
  · rcases wellFormed.lead_dir.mp leads with ⟨rfl, -⟩ | ⟨below, rfl, further⟩
    · exact bounded
    · rw [shift]
      exact whole.bounded below node (Entries.lead_inOrder.mpr further) noLink

/-- All files behind one entry, and then all files behind the others. -/
theorem append {others : Findings} (here : first.Whole root names [item])
    (behind : others.Whole root names rest) (wellFormed : Entries.WellFormed (item :: rest))
    (least : ∀ other ∈ rest, item.1 < other.1) (entry : ∀ name ∈ names, name.IsEntry) :
    Whole root names (item :: rest)
      { records := first.records ++ others.records, failure := others.failure } := by
  have entryAll : ∀ route node, Entries.Lead (item :: rest) route node →
      ∀ name ∈ names ++ route, name.IsEntry := fun route node leads name member =>
    (List.mem_append.mp member).elim (entry name) (wellFormed.isEntry_of_lead leads name)
  have entryHere := fun route node leads =>
    entryAll route node (Entries.lead_cons.mpr (.inl leads))
  have entryBehind := fun route node leads =>
    entryAll route node (Entries.lead_cons.mpr (.inr leads))
  have both : ∀ route data, Entries.Lead (item :: rest) route (.file data) ↔
      Entries.Lead [item] route (.file data) ∨ rest.Lead route (.file data) :=
    fun route data => Entries.lead_cons
  refine ⟨behind.ended, fun route data leads => ?_, fun record => ?_, ?_,
    fun route node leads noLink => ?_⟩
  · rcases Entries.lead_cons.mp leads with leads | leads
    · exact here.text route data leads
    · exact behind.text route data leads
  · simp only [List.mem_append, here.exact, behind.exact, both, or_and_right, exists_or]
  -- Routes below one entry all begin with its name, which is less than the later names.
  · refine List.pairwise_append.mpr ⟨here.ordered, behind.ordered, fun a isA b isB => ?_⟩
    obtain ⟨own, isItem, lower, route⟩ := here.exists_route entryHere isA
    obtain ⟨next, member, lower', route'⟩ := behind.exists_route entryBehind isB
    obtain rfl := List.mem_singleton.mp isItem
    rw [route, route']
    exact List.append_left_lt (List.cons_lt_cons_iff.mpr (.inl (least next member)))
  · rcases Entries.lead_cons.mp leads with leads | leads
    · exact here.bounded route node leads noLink
    · exact behind.bounded route node leads noLink

end Whole

namespace Accounts

theorem whole (accounts : findings.Accounts root names entries)
    (ended : findings.failure = none) : findings.Whole root names entries := by
  refine accounts.resolve_right ?_
  rintro ⟨e, failed, -⟩
  rw [ended] at failed
  cases failed

theorem stops (accounts : findings.Accounts root names entries)
    (failed : findings.failure = some e) : Stops root names entries e := by
  rcases accounts with whole | ⟨e', failed', stops⟩
  · rw [whole.ended] at failed
    cases failed
  · obtain rfl := Option.some.inj (failed.symm.trans failed')
    exact stops

theorem empty (root : PathText) (names : List Name) : Findings.empty.Accounts root names [] := by
  refine .inl ⟨rfl, ?_, ?_, .nil, ?_⟩ <;> simp [Entries.Lead, Findings.empty]

/-- There is no file behind a link. -/
theorem link (root : PathText) (names : List Name) (name : Name) (target : PathText) :
    Findings.empty.Accounts root names [(name, .link target)] := by
  refine .inl ⟨rfl, ?_, ?_, .nil, ?_⟩
  · simp [Entries.lead_leaf]
  · simp [Entries.lead_leaf, Findings.empty]
  · rintro route node leads noLink
    exact absurd ((Entries.lead_leaf (by simp)).mp leads).2 (noLink target)

/-- What is said of the entries of a directory is said of the directory. -/
theorem directory (wellFormed : inner.WellFormed)
    (bounded : (root.extend (names ++ [name])).length ≤ pathLimit)
    (accounts : findings.Accounts root (names ++ [name]) inner.inOrder) :
    findings.Accounts root names [(name, .dir inner)] := by
  rcases accounts with whole | ⟨e, stopped, stops⟩
  · exact .inl (whole.directory wellFormed bounded)
  · refine .inr ⟨e, stopped, stops.mono fun route node leads => ⟨name :: route, ?_, by simp⟩⟩
    exact wellFormed.lead_dir.mpr (.inr ⟨route, rfl, Entries.lead_inOrder.mp leads⟩)

/-- What is said of one entry, and then of those behind it. -/
theorem andThen (here : first.Accounts root names [item])
    (others : (next ()).Accounts root names rest)
    (wellFormed : Entries.WellFormed (item :: rest)) (least : ∀ other ∈ rest, item.1 < other.1)
    (entry : ∀ name ∈ names, name.IsEntry) :
    (first.andThen next).Accounts root names (item :: rest) := by
  unfold Findings.andThen
  rcases here with here | ⟨e, stopped, stops⟩
  · simp only [here.ended]
    rcases others with others | ⟨e, stopped, stops⟩
    · exact .inl (here.append others wellFormed least entry)
    · exact .inr ⟨e, stopped, stops.mono fun route node leads =>
        ⟨route, Entries.lead_cons.mpr (.inr leads), rfl⟩⟩
  · simp only [stopped]
    exact .inr ⟨e, stopped, stops.mono fun route node leads =>
      ⟨route, Entries.lead_cons.mpr (.inl leads), rfl⟩⟩

end Accounts

end Findings

namespace FileSystem

variable {path : PathText} {place : Place} {data : Bytes}

/-! ## Going on with some entries -/

/-- Where a walk can go on with some entries: at a directory that has them, and to which a path
leads. -/
structure Stands (files : FileSystem) (path : PathText) (place : Place) (entries : Entries) :
    Prop where
  check : checkPath path = .ok ()
  leads : files.LeadsTo path.pieces place
  wellFormed : entries.WellFormed
  there : ∀ item ∈ entries, files.node? (place ++ [item.1]) = some item.2

/-- A walk that looks at a directory can go on with its entries. -/
theorem stands_of_stat (wellFormed : files.WellFormed)
    {there : files.node? place = some (.dir entries)}
    (looked : files.stat path = .ok ⟨place, .dir entries, there⟩) :
    files.Stands path place entries.inOrder := by
  have inner : entries.WellFormed := wellFormed.of_node? there
  have resolved := resolve_of_look looked
  exact ⟨(check_of_resolve resolved).1,
    leadsTo_of_resolve resolved (label?_eq_dir_iff.mpr ⟨entries, there⟩), inner.inOrder,
    fun item member => inner.node?_entry there (Entries.mem_inOrder.mp member)⟩

namespace Stands

theorem tail (stands : files.Stands path place (item :: rest)) : files.Stands path place rest :=
  ⟨stands.check, stands.leads, stands.wellFormed.tail,
    fun item member => stands.there item (List.mem_cons_of_mem _ member)⟩

theorem isEntry (stands : files.Stands path place ((name, node) :: rest)) : name.IsEntry :=
  stands.wellFormed.entry List.mem_cons_self

theorem read (stands : files.Stands path place ((name, .file data) :: rest)) :
    files.read (path.push name) =
      if pathLimit < (path.push name).length then .error .nameTooLong else .ok data :=
  read_push stands.check stands.leads stands.isEntry
    (label?_eq_file_iff.mpr (stands.there _ List.mem_cons_self))

theorem readDir (stands : files.Stands path place ((name, .dir inner) :: rest)) :
    files.readDir (path.push name) =
      if pathLimit < (path.push name).length then .error .nameTooLong else .ok inner :=
  readDir_push stands.check stands.leads stands.isEntry (stands.there _ List.mem_cons_self)

/-- A directory that is entered has entries to go on with. -/
theorem enter {entered : Entries} (stands : files.Stands path place ((name, .dir inner) :: rest))
    (granted : files.readDir (path.push name) = .ok entered) :
    files.Stands (path.push name) (place ++ [name]) inner.inOrder := by
  have here := stands.there _ List.mem_cons_self
  have deeper : Entries.WellFormed inner := stands.wellFormed.inner List.mem_cons_self
  obtain ⟨check, leads⟩ :=
    leadsTo_of_readDir stands.check stands.leads stands.isEntry here granted
  exact ⟨check, leads, deeper.inOrder,
    fun item member => deeper.node?_entry here (Entries.mem_inOrder.mp member)⟩

end Stands

/-! ## The walk -/

/-- A file is taken up by its name, or it is why the walk stops. -/
theorem takeUp_accounts (stands : files.Stands path place ((name, .file data) :: rest))
    (path_eq : path = root.extend names) :
    (files.takeUp (path.push name) (names ++ [name])).Accounts root names
      [(name, .file data)] := by
  have own : Entries.Lead [(name, .file data)] [name] (.file data) :=
    (Entries.lead_leaf (by simp)).mpr ⟨rfl, rfl⟩
  have read := stands.read
  rw [path_eq, ← PathText.extend_concat] at read ⊢
  unfold takeUp
  cases made : relativePath (names ++ [name]) with
  | error e =>
      obtain ⟨rfl, other, member, noText⟩ := relativePath_eq_error made
      exact .inr ⟨_, rfl, .notText own member noText⟩
  | ok text =>
      by_cases long : pathLimit < (root.extend (names ++ [name])).length
      · rw [read, if_pos long]
        exact .inr ⟨_, rfl, .file own long⟩
      · rw [read, if_neg long]
        exact .inl (.file made (Nat.le_of_not_lt long) data)

/-- **A walk that passes over links takes up every file in order**, or says why not. -/
theorem walkEntries_accounts {follow : Bool} (passes : follow = false) (inside : List Ancestor)
    (path : PathText) (names : List Name) (place : Place) (entries : Entries)
    (stands : files.Stands path place entries) (path_eq : path = root.extend names)
    (ordered : entries.Pairwise fun a b => a.1 < b.1) (entry : ∀ name ∈ names, name.IsEntry) :
    (files.walkEntries follow files.gather inside path names place entries).Accounts root names
      entries := by
  fun_induction walkEntries files follow files.gather inside path names place entries with
  | case1 => exact .empty root _
  | case2 inside path names place name rest data ih =>
      obtain ⟨least, later⟩ := List.pairwise_cons.mp ordered
      exact .andThen (takeUp_accounts stands path_eq) (ih stands.tail path_eq later entry)
        stands.wellFormed least entry
  | case3 inside path names place name inner rest found ih2 ih1 =>
      obtain ⟨least, later⟩ := List.pairwise_cons.mp ordered
      have deeper : Entries.WellFormed inner := stands.wellFormed.inner List.mem_cons_self
      have path_eq' : path.push name = root.extend (names ++ [name]) := by
        rw [path_eq, PathText.extend_concat]
      refine .andThen ?_ (ih1 stands.tail path_eq later entry) stands.wellFormed least entry
      simp only [found, gather_other, Findings.empty_andThen]
      split
      -- The directory is there, so nothing but the length of its path can keep the walk out.
      · next e refused =>
        rw [stands.readDir] at refused
        split at refused
        · next long =>
          obtain rfl := Except.error.inj refused
          rw [path_eq'] at long ⊢
          exact .inr ⟨_, rfl, .directory (deeper.lead_dir.mpr (.inl ⟨rfl, rfl⟩)) long⟩
        · cases refused
      · next granted =>
        have entered := stands.enter granted
        refine .directory deeper ?_ (ih2 entered path_eq' deeper.pairwise_inOrder
          (stands.wellFormed.entry_concat entry))
        rw [← path_eq']
        exact (checkPath_eq_ok_iff.mp entered.check).2.2
  | case4 inside path names place name target rest found ih2 ih1 =>
      subst passes
      obtain ⟨least, later⟩ := List.pairwise_cons.mp ordered
      exact .andThen (.link root names name target) (ih1 stands.tail path_eq later entry)
        stands.wellFormed least entry

end FileSystem

end FlatArchive
