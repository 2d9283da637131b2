import FlatArchive.Proofs.FileSystem.Links
import FlatArchive.Proofs.Transfer.Following

/-!
# Following links as a change of the tree

A walk that follows links gives what a walk that passes over them gives, in a tree in which
copies stand for the links (`collect_expanded`).  A link is replaced by a copy of the file or
directory that it leads to from the directory that it is in, and so are the links in that copy
(`expandNode`).

The two walks go side by side: where the first one is in some directory, by whatever links, the
second one is at the place that the names on its way have in the new tree
(`walkEntries_expand`).  The path of the root has to lead to the same directory in both trees:
that is so unless it leads through one of the links that are replaced
(`collect_expanded_detour`).
-/

namespace FlatArchive

namespace Entries

variable {entries : Entries} {change : Name → Node → Node} {name : Name}

/-- The same names, with other nodes in place of their own. -/
def mapNodes (entries : Entries) (change : Name → Node → Node) : Entries :=
  entries.map fun item => (item.1, change item.1 item.2)

theorem lookup_mapNodes (entries : Entries) (change : Name → Node → Node) (name : Name) :
    (entries.mapNodes change).lookup name = (entries.lookup name).map (change name) := by
  induction entries with
  | nil => rfl
  | cons item rest ih =>
      rw [mapNodes, List.map_cons, List.lookup_cons, List.lookup_cons]
      cases same : name == item.1 with
      | true => rw [eq_of_beq same]; rfl
      | false => exact ih

theorem inOrder_mapNodes (entries : Entries) (change : Name → Node → Node) :
    (entries.mapNodes change).inOrder = entries.inOrder.mapNodes change := by
  unfold inOrder mapNodes
  have ordered := List.map_mergeSort (r := fun a b : Name × Node => decide (a.1 ≤ b.1))
    (s := fun a b : Name × Node => decide (a.1 ≤ b.1)) (l := entries)
    (f := fun item => (item.1, change item.1 item.2)) fun _ _ _ _ => rfl
  exact ordered.symm

end Entries

namespace FileSystem

variable {files other : FileSystem} {root path : PathText} {place there home : Place}
  {name : Name} {entries inner : Entries} {target : PathText} {data : Bytes}

/-! ## Copies in place of links -/

/-- What the link at a place leads to, seen from the directory that it is in. -/
def behind? (files : FileSystem) (place : Place) : Option files.Found :=
  match files.walk .follow linkLimit false [] place with
  | .ok (.found target) =>
    match (files.node? target).attach with
    | some ⟨node, there⟩ => some ⟨target, node, there⟩
    | none => none
  | _ => none

/-- How many directories there are besides some. -/
def placesLeft (files : FileSystem) (inside : List Place) : Nat :=
  files.directories.countP fun place => place ∉ inside

theorem placesLeft_cons_le (files : FileSystem) (place : Place) (inside : List Place) :
    files.placesLeft (place :: inside) ≤ files.placesLeft inside :=
  List.countP_mono_left fun other _ => by simp

/-- To enter a directory for the first time leaves fewer of them. -/
theorem placesLeft_cons_lt {inside : List Place} (there : files.node? place = some (.dir entries))
    (outside : place ∉ inside) : files.placesLeft (place :: inside) < files.placesLeft inside :=
  countP_lt_countP (mem_directories there) (by simpa using outside) (by simp) fun other => by simp

/-- The directories that the things in a node at a place are in. -/
def enclosing (place : Place) (inside : List Place) : Node → List Place
  | .dir _ => place :: inside
  | _ => inside

theorem placesLeft_enclosing_le (files : FileSystem) (place : Place) (inside : List Place)
    (node : Node) : files.placesLeft (enclosing place inside node) ≤ files.placesLeft inside := by
  cases node with
  | dir entries => exact placesLeft_cons_le files place inside
  | file data => exact Nat.le_refl _
  | link target => exact Nat.le_refl _

/-- The node at a place, in the directories `inside`, with each link in it replaced by a copy of
what it leads to.  A link that leads nowhere, or to a directory that it is in, stays. -/
def expandNode (files : FileSystem) (inside : List Place) (place : Place) : Node → Node
  | .file data => .file data
  | .dir entries => .dir (entries.attach.map fun ⟨(name, node), _⟩ =>
      (name, files.expandNode (place :: inside) (place ++ [name]) node))
  | .link target =>
    match files.behind? place with
    | some ⟨_, .file data, _⟩ => .file data
    | some ⟨there, .dir entries, _⟩ =>
      if _ : there ∉ inside then files.expandNode inside there (.dir entries)
      else .link target
    | _ => .link target
termination_by node => (files.placesLeft (enclosing place inside node), sizeOf node)
decreasing_by
  · rename_i member
    refine Prod.Lex.right' _ (placesLeft_enclosing_le files _ _ node) ?_
    have inner := List.sizeOf_lt_of_mem member
    simp only [Prod.mk.sizeOf_spec, Node.dir.sizeOf_spec] at inner ⊢
    omega
  · exact Prod.Lex.left _ _ (placesLeft_cons_lt (by assumption) (by assumption))

/-- The tree with each link below a directory replaced by a copy of what it leads to. -/
def expanded (files : FileSystem) (place : Place) : FileSystem :=
  match files.node? place with
  | some node => files.put place (files.expandNode [] place node)
  | none => files

theorem expandNode_file (inside : List Place) (place : Place) (data : Bytes) :
    files.expandNode inside place (.file data) = .file data := by
  rw [expandNode]

theorem expandNode_dir (files : FileSystem) (inside : List Place) (place : Place)
    (entries : Entries) :
    files.expandNode inside place (.dir entries) = .dir (entries.mapNodes fun name =>
      files.expandNode (place :: inside) (place ++ [name])) := by
  rw [expandNode, Entries.mapNodes]
  congr 1
  conv_rhs => rw [← List.attach_map_subtype_val entries, List.map_map]
  rfl

theorem expandNode_link_file (inside : List Place) (target : PathText)
    {found : files.node? there = some (.file data)}
    (behind : files.behind? place = some ⟨there, .file data, found⟩) :
    files.expandNode inside place (.link target) = .file data := by
  rw [expandNode, behind]

/-- A link to a directory that it is not in becomes a copy of it, in which the links are replaced
too. -/
theorem expandNode_link_dir {inside : List Place} (target : PathText)
    {found : files.node? there = some (.dir entries)}
    (behind : files.behind? place = some ⟨there, .dir entries, found⟩)
    (outside : there ∉ inside) :
    files.expandNode inside place (.link target) =
      files.expandNode inside there (.dir entries) := by
  conv_lhs => rw [expandNode]
  simp only [behind, outside, not_false_eq_true, dite_true]

/-- What a walk finds behind a link is what is copied. -/
theorem behind?_of_stat (wellFormed : files.WellFormed) (leads : files.LeadsTo path.pieces place)
    (isEntry : name.IsEntry) {found : files.Found}
    (looked : files.stat (path.push name) = .ok found) :
    files.behind? (place ++ [name]) = some found := by
  have walked := walk_place_of_resolve wellFormed leads isEntry (resolve_of_look looked)
  unfold behind?
  simp only [walked]
  split
  · next node isThere _ =>
    obtain rfl := Option.some.inj (isThere.symm.trans found.node?_place)
    rfl
  · next absent =>
    simp [found.node?_place] at absent

theorem isOutside_iff {inside : List Ancestor} :
    isOutside inside place = true ↔ place ∉ inside.map Ancestor.place := by
  simp only [isOutside, List.all_eq_true, decide_eq_true_eq, List.mem_map, not_exists, not_and]

/-- A directory with other nodes in place of its own has them under the same names. -/
theorem node?_mapNodes {change : Name → Node → Node} (inner : entries.WellFormed)
    (here : other.node? home = some (.dir (entries.mapNodes change))) {item : Name × Node}
    (member : item ∈ entries) : other.node? (home ++ [item.1]) = some (change item.1 item.2) := by
  rw [node?_append, here, Option.bind_some, Node.descend_dir_cons, Entries.lookup_mapNodes,
    inner.lookup_iff.mpr member, Option.map_some, Option.bind_some, Node.descend_nil]

/-- Taking a file up depends on the tree by what is read there alone. -/
theorem takeUp_congr {names : List Name} (same : files.read path = other.read path) :
    files.takeUp path names = other.takeUp path names := by
  unfold takeUp
  rw [same]

/-! ## Two walks side by side -/

/-- In some tree, the directory at `home` has copies in place of the links among some entries of
the directory at `place`, and `path` leads there. -/
structure Mirrors (files other : FileSystem) (path : PathText) (inside : List Ancestor)
    (place home : Place) (entries : Entries) : Prop where
  leads : other.LeadsTo path.pieces home
  there : ∀ item ∈ entries, other.node? (home ++ [item.1]) =
    some (files.expandNode (inside.map Ancestor.place) (place ++ [item.1]) item.2)

/-- What a walk that follows links goes through, with copies in place of links. -/
abbrev copies (files : FileSystem) (inside : List Ancestor) (place : Place) (entries : Entries) :
    Entries :=
  entries.mapNodes fun name =>
    files.expandNode (inside.map Ancestor.place) (place ++ [name])

theorem copies_cons (files : FileSystem) (inside : List Ancestor) (place : Place)
    (item : Name × Node) (rest : Entries) :
    files.copies inside place (item :: rest) =
      (item.1, files.expandNode (inside.map Ancestor.place) (place ++ [item.1]) item.2) ::
        files.copies inside place rest := rfl

namespace Mirrors

variable {inside : List Ancestor} {item : Name × Node} {rest : Entries}

theorem tail (mirrors : Mirrors files other path inside place home (item :: rest)) :
    Mirrors files other path inside place home rest :=
  ⟨mirrors.leads, fun item member => mirrors.there item (List.mem_cons_of_mem _ member)⟩

/-- The second walk enters a directory of copies. -/
theorem enter (inside : List Ancestor) (check : checkPath path = .ok ())
    (leads : other.LeadsTo path.pieces home) (isEntry : name.IsEntry) (inner : entries.WellFormed)
    (here : other.node? (home ++ [name]) = some (.dir (files.copies inside place entries)))
    (bounded : (path.push name).length ≤ pathLimit) (inside' : List Ancestor) (names : List Name)
    (rest : Entries) :
    Mirrors files other (path.push name) inside place (home ++ [name]) entries.inOrder ∧
      other.walkEntries false other.gather inside' path names home
          ((name, .dir (files.copies inside place entries)) :: rest) =
        (other.walkEntries false other.gather (⟨home ++ [name], path.push name⟩ :: inside')
          (path.push name) (names ++ [name]) (home ++ [name])
          (files.copies inside place entries.inOrder)).andThen
            fun _ => other.walkEntries false other.gather inside' path names home rest := by
  have entered := readDir_push check leads isEntry here
  rw [if_neg (Nat.not_lt.mpr bounded)] at entered
  refine ⟨⟨(leadsTo_of_readDir check leads isEntry here entered).2,
    fun item member => node?_mapNodes inner here (Entries.mem_inOrder.mp member)⟩, ?_⟩
  rw [walkEntries, entered, gather_other, Findings.empty_andThen]
  dsimp only
  rw [Entries.inOrder_mapNodes]

end Mirrors

/-- **Two walks give the same**, one that follows links and one that has copies in their place. -/
theorem walkEntries_copies (wellFormed : files.WellFormed) (lead : files.LinksLead root)
    {follow : Bool} (follows : follow = true) (inside : List Ancestor) (path : PathText)
    (names : List Name) (place : Place) (entries : Entries)
    (reaches : files.Reaches root inside path names place entries) (inside' : List Ancestor)
    (home : Place) (mirrors : Mirrors files other path inside place home entries) :
    files.walkEntries follow files.gather inside path names place entries =
      other.walkEntries false other.gather inside' path names home
        (files.copies inside place entries) := by
  fun_induction walkEntries files follow files.gather inside path names place entries
    generalizing inside' home with
  | case1 => rw [copies, Entries.mapNodes, List.map_nil, walkEntries]
  | case2 inside path names place name rest data ih =>
      have stands := reaches.stands wellFormed
      have isCopy := mirrors.there _ List.mem_cons_self
      rw [expandNode_file] at isCopy
      have same : files.read (path.push name) = other.read (path.push name) := by
        rw [stands.read,
          read_push stands.check mirrors.leads stands.isEntry (label?_eq_file_iff.mpr isCopy)]
      rw [copies_cons, expandNode_file, walkEntries]
      refine Findings.andThen_congr (takeUp_congr same) fun ended => ?_
      refine ih (reaches.next ?_) inside' home mirrors.tail
      rwa [walkEntries, walkEntries, Findings.andThen_empty]
  | case3 inside path names place name inner rest found ih2 ih1 =>
      subst follows
      have stands := reaches.stands wellFormed
      have deeper : Entries.WellFormed inner := stands.wellFormed.inner List.mem_cons_self
      have isCopy := mirrors.there _ List.mem_cons_self
      rw [expandNode_dir] at isCopy
      have entered := stands.readDir
      have others : found.failure = none →
          files.walkEntries true files.gather inside path names place rest =
            other.walkEntries false other.gather inside' path names home
              (files.copies inside place rest) := by
        intro ended
        refine ih1 (reaches.next ?_) inside' home mirrors.tail
        rwa [walkEntries, walkEntries, Findings.andThen_empty]
      by_cases long : pathLimit < (path.push name).length
      · have entered' := readDir_push stands.check mirrors.leads stands.isEntry isCopy
        rw [if_pos long] at entered entered'
        rw [copies_cons, expandNode_dir, walkEntries]
        refine Findings.andThen_congr ?_ others
        simp only [found, entered, entered', gather_other, Findings.empty_andThen]
      · rw [if_neg long] at entered
        obtain ⟨mirrors', walked⟩ := Mirrors.enter (⟨place ++ [name], path.push name⟩ :: inside)
          stands.check mirrors.leads stands.isEntry deeper isCopy (Nat.le_of_not_lt long) inside'
          names (files.copies inside place rest)
        rw [copies_cons, expandNode_dir]
        refine (Findings.andThen_congr ?_ others).trans walked.symm
        simp only [found, entered, gather_other, Findings.empty_andThen]
        exact ih2 (reaches.enter entered) _ _ mirrors'
  | case4 inside path names place name target rest found ih2 ih1 =>
      subst follows
      have stands := reaches.stands wellFormed
      have isCopy := mirrors.there _ List.mem_cons_self
      obtain ⟨⟨there, node, isThere⟩, looked, leadsTo⟩ := lead _ _ _ _ _ _ _ reaches
      -- by whatever path the walk came here, the copy is of the same thing
      have behind := behind?_of_stat wellFormed stands.leads stands.isEntry looked
      have bounded : (path.push name).length ≤ pathLimit :=
        (checkPath_eq_ok_iff.mp (check_of_resolve (resolve_of_look looked)).1).2.2
      have others : found.failure = none →
          files.walkEntries true files.gather inside path names place rest =
            other.walkEntries false other.gather inside' path names home
              (files.copies inside place rest) := by
        intro ended
        refine ih1 (reaches.next ?_) inside' home mirrors.tail
        rwa [walkEntries, walkEntries, Findings.andThen_empty]
      rcases leadsTo with ⟨data, rfl⟩ | ⟨entries, rfl, outside⟩
      · rw [expandNode_link_file _ _ behind] at isCopy
        have same : files.read (path.push name) = other.read (path.push name) := by
          rw [read_push stands.check mirrors.leads stands.isEntry (label?_eq_file_iff.mpr isCopy),
            if_neg (Nat.not_lt.mpr bounded)]
          simp only [read, looked]
        rw [copies_cons, expandNode_link_file _ _ behind, walkEntries]
        refine Findings.andThen_congr ?_ others
        simp only [found, lookBehind, looked]
        exact takeUp_congr same
      · have copied := expandNode_link_dir target behind (isOutside_iff.mp outside)
        rw [copied, expandNode_dir] at isCopy
        obtain ⟨mirrors', walked⟩ := Mirrors.enter (⟨there, path.push name⟩ :: inside)
          stands.check mirrors.leads stands.isEntry (wellFormed.of_node? isThere) isCopy bounded
          inside' names (files.copies inside place rest)
        rw [copies_cons, copied, expandNode_dir]
        refine (Findings.andThen_congr ?_ others).trans walked.symm
        simp only [found, lookBehind_of_directory looked outside, gather_other,
          Findings.empty_andThen]
        exact ih2 ⟨there, path.push name⟩ entries (directoriesLeft_cons_lt isThere outside)
          (reaches.follow looked outside) _ _ mirrors'

/-! ## Whole walks -/

/-- What is put where a directory was is there. -/
theorem node?_put_directory (isDir : files.node? place = some (.dir entries)) (after : Entries) :
    (files.put place (.dir after)).node? place = some (.dir after) := by
  rcases List.eq_nil_or_concat place with rfl | ⟨upper, name, rfl⟩
  · rw [put, Node.put]
    rfl
  · rw [List.concat_eq_append] at isDir ⊢
    have shown := label?_eq_dir_iff.mpr ⟨entries, isDir⟩
    have above : files.label? upper = some .dir :=
      label?_dir_of_below (by rw [shown]; simp) (List.cons_ne_nil name [])
    obtain ⟨siblings, above⟩ := label?_eq_dir_iff.mp above
    have found := Node.descend_put_append above name (.dir after) []
    rw [List.append_nil, Node.descend_nil] at found
    rw [node?_put_of_ne_nil files _ _ (by simp)]
    exact found

/-- **Following links is passing over them in a tree of copies.** -/
theorem collect_expanded (wellFormed : files.WellFormed)
    {isDir : files.node? place = some (.dir entries)}
    (looked : files.stat root = .ok ⟨place, .dir entries, isDir⟩) (lead : files.LinksLead root)
    (still : (files.expanded place).resolve .follow root = .ok (.found place)) :
    files.collect true root = (files.expanded place).collect false root := by
  have inner : entries.WellFormed := wellFormed.of_node? isDir
  have copied : (files.expanded place).node? place =
      some (.dir (files.copies [⟨place, root⟩] place entries)) := by
    rw [expanded, isDir]
    dsimp only
    rw [expandNode_dir]
    exact node?_put_directory isDir _
  have looked' := look_of_resolve still copied
  have leads := leadsTo_of_resolve still (label?_eq_dir_iff.mpr ⟨_, copied⟩)
  rw [collect_of_directory looked, collect_of_directory looked', Entries.inOrder_mapNodes]
  exact walkEntries_copies wellFormed lead rfl _ root [] place _ (.start looked) _ place
    ⟨leads, fun item member => node?_mapNodes inner copied (Entries.mem_inOrder.mp member)⟩

/-- A directory `r` with two links to the directory `x` beside it, and one to a file in there by
way of the first; `x` itself has a link, to the directory `y` in it. -/
def linked : FileSystem where
  entries := [([0x72], .dir [([0x61], .link [0x2E, 0x2E, slash, 0x78]),
      ([0x63], .link [slash, 0x78]), ([0x68], .link [0x61, slash, 0x66])]),
    ([0x78], .dir [([0x62], .link [0x79]), ([0x66], .file [1]),
      ([0x79], .dir [([0x67], .file [2])])])]

theorem linked_wellFormed : linked.WellFormed := by
  unfold WellFormed linked
  refine .dir_cons (by decide) (by decide) ?_ (.dir_singleton (by decide) ?_)
  · refine .dir_cons (by decide) (by decide) (.link (by decide)) ?_
    refine .dir_cons (by decide) (by decide) (.link (by decide)) ?_
    exact .dir_singleton (by decide) (.link (by decide))
  · refine .dir_cons (by decide) (by decide) (.link (by decide)) ?_
    refine .dir_cons (by decide) (by decide) .file ?_
    exact .dir_singleton (by decide) (.dir_singleton (by decide) .file)

/-- The directory `x` is gone through twice, and under the names of the links. -/
theorem collect_expanded_linked :
    linked.LinksLead [0x72] ∧
      linked.collect true [0x72] = (linked.expanded [[0x72]]).collect false [0x72] ∧
      linked.collect true [0x72] = { records := [.ofFile "a/b/g" [2], .ofFile "a/f" [1],
        .ofFile "a/y/g" [2], .ofFile "c/b/g" [2], .ofFile "c/f" [1], .ofFile "c/y/g" [2],
        .ofFile "h" [1]] } := by
  have collected : linked.collect true [0x72] = { records := [.ofFile "a/b/g" [2],
      .ofFile "a/f" [1], .ofFile "a/y/g" [2], .ofFile "c/b/g" [2], .ofFile "c/f" [1],
      .ofFile "c/y/g" [2], .ofFile "h" [1]] } := by cbv
  have lead : linked.LinksLead [0x72] := linksLead_of_collect (by rw [collected])
  have isDir : linked.node? [[0x72]] = some (.dir [([0x61], .link [0x2E, 0x2E, slash, 0x78]),
      ([0x63], .link [slash, 0x78]), ([0x68], .link [0x61, slash, 0x66])]) := rfl
  have resolved : linked.resolve .follow [0x72] = .ok (.found [[0x72]]) := by cbv
  exact ⟨lead, collect_expanded linked_wellFormed (look_of_resolve resolved isDir) lead (by cbv),
    collected⟩

/-- A directory `d` with a file `f` and a link `l` to a directory two levels down. -/
def detour : FileSystem where
  entries := [([0x64], .dir [([0x66], .file [1]), ([0x6C], .link [0x79, slash, 0x7A]),
    ([0x79], .dir [([0x7A], .dir [])])])]

theorem detour_wellFormed : detour.WellFormed := by
  unfold WellFormed detour
  refine .dir_singleton (by decide) (.dir_cons (by decide) (by decide) .file ?_)
  refine .dir_cons (by decide) (by decide) (.link (by decide)) ?_
  exact .dir_singleton (by decide) (.dir_singleton (by decide) .dir_nil)

/-- From where the link leads, two steps up is `d`; from the copy in its place, it is the top. -/
theorem collect_expanded_detour :
    let root := [0x64, slash, 0x6C, slash, 0x2E, 0x2E, slash, 0x2E, 0x2E]
    detour.WellFormed ∧ detour.resolve .follow root = .ok (.found [[0x64]]) ∧
      detour.label? [[0x64]] = some .dir ∧ detour.LinksLead root ∧
      detour.collect true root = { records := [.ofFile "f" [1]] } ∧
      (detour.expanded [[0x64]]).collect false root = { records := [.ofFile "d/f" [1]] } ∧
      detour.collect true root ≠ (detour.expanded [[0x64]]).collect false root := by
  intro root
  have followed : detour.collect true
      [0x64, slash, 0x6C, slash, 0x2E, 0x2E, slash, 0x2E, 0x2E] =
        { records := [.ofFile "f" [1]] } := by cbv
  have passed : (detour.expanded [[0x64]]).collect false
      [0x64, slash, 0x6C, slash, 0x2E, 0x2E, slash, 0x2E, 0x2E] =
        { records := [.ofFile "d/f" [1]] } := by cbv
  have resolved : detour.resolve .follow
      [0x64, slash, 0x6C, slash, 0x2E, 0x2E, slash, 0x2E, 0x2E] = .ok (.found [[0x64]]) := by cbv
  refine ⟨detour_wellFormed, resolved, rfl, linksLead_of_collect (by rw [followed]), followed,
    passed, ?_⟩
  rw [followed, passed]
  decide

end FileSystem

end FlatArchive
