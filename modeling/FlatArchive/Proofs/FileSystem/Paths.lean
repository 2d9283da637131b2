import FlatArchive.FileSystem.Resolve
import Mathlib.Data.List.Basic

/-!
# What a path is made of

A file system sees the pieces of a path and little else, so what putting paths together
and taking them apart does is said in pieces: names put behind a path are pieces behind
its pieces (`pieces_extend`), and the directory above a path has all pieces but the last
(`pieces_parent`).  The text of a path above is also no longer than that of the path, and
holds no other bytes (`parent_sublist`), which is what the bounds on paths need.

Both hold of paths that are plain, without dots.  A dot is a piece for whoever walks
through a path and mostly none for whoever takes it apart.
-/

namespace FlatArchive

/-- What can stand between two slashes. -/
structure Name.IsPiece (name : Name) : Prop where
  ne_nil : name ≠ []
  no_slash : slash ∉ name

/-- What a directory can call something in it: a piece that is not one of the two that
every directory has a meaning for. -/
structure Name.IsPlain (name : Name) : Prop extends name.IsPiece where
  ne_dot : name ≠ dot
  ne_dotDot : name ≠ dotDot

/-- What something in a directory is called: a plain name that is not too long. -/
structure Name.IsEntry (name : Name) : Prop extends name.IsPlain where
  noNul : 0 ∉ name
  short : name.length ≤ nameLimit

instance (name : Name) : Decidable name.IsPiece :=
  decidable_of_iff (name ≠ [] ∧ slash ∉ name) ⟨fun ⟨ne_nil, no_slash⟩ => ⟨ne_nil, no_slash⟩,
    fun piece => ⟨piece.ne_nil, piece.no_slash⟩⟩

instance (name : Name) : Decidable name.IsPlain :=
  decidable_of_iff (name.IsPiece ∧ name ≠ dot ∧ name ≠ dotDot)
    ⟨fun ⟨piece, ne_dot, ne_dotDot⟩ => ⟨piece, ne_dot, ne_dotDot⟩,
      fun plain => ⟨plain.toIsPiece, plain.ne_dot, plain.ne_dotDot⟩⟩

instance (name : Name) : Decidable name.IsEntry :=
  decidable_of_iff (name.IsPlain ∧ 0 ∉ name ∧ name.length ≤ nameLimit)
    ⟨fun ⟨plain, noNul, short⟩ => ⟨plain, noNul, short⟩,
      fun entry => ⟨entry.toIsPlain, entry.noNul, entry.short⟩⟩

/-- A path that is made of plain names. -/
def PathText.IsPlain (text : PathText) : Prop :=
  ∀ piece ∈ text.pieces, Name.IsPlain piece

instance (text : PathText) : Decidable text.IsPlain :=
  inferInstanceAs (Decidable (∀ piece ∈ text.pieces, Name.IsPlain piece))

namespace PathText

variable {text : PathText} {name last : Name} {names init : List Name}

/-! ## Cutting at slashes -/

/-- A slash keeps the pieces in front of it apart from those behind it. -/
theorem pieces_append_slash (front back : PathText) :
    pieces (front ++ slash :: back) = pieces front ++ pieces back := by
  unfold pieces List.splitOn
  rw [List.splitOnP_append_cons _ _ (by simp), List.filter_append]

@[simp] theorem pieces_nil : pieces [] = [] := rfl

/-- A slash in front makes no piece. -/
theorem pieces_slash_cons (text : PathText) : pieces (slash :: text) = pieces text :=
  pieces_append_slash [] text

/-- A slash at the end makes no piece. -/
theorem pieces_append_slash_nil (text : PathText) : pieces (text ++ [slash]) = pieces text := by
  rw [pieces_append_slash, pieces_nil, List.append_nil]

/-- However many slashes there are at the end, they make no piece. -/
theorem pieces_append_slashes (text : PathText) (n : Nat) :
    pieces (text ++ List.replicate n slash) = pieces text := by
  induction n with
  | zero => rw [List.replicate_zero, List.append_nil]
  | succ n ih => rw [List.replicate_succ', ← List.append_assoc, pieces_append_slash_nil, ih]

/-- A piece is a path whose only piece it is. -/
theorem pieces_of_isPiece (piece : name.IsPiece) : pieces name = [name] := by
  have uncut : List.splitOn slash name = [name] := by
    refine List.splitOnP_eq_singleton fun byte member => ?_
    rw [beq_eq_false_iff_ne]
    rintro rfl
    exact piece.no_slash member
  simp [pieces, uncut, piece.ne_nil]

/-- What is between two slashes has none in it. -/
theorem slash_notMem_of_mem_splitOn (text : PathText) :
    ∀ part ∈ List.splitOn slash text, slash ∉ part := by
  induction text with
  | nil => simp [List.splitOn]
  | cons byte rest ih =>
      unfold List.splitOn at ih ⊢
      rw [List.splitOnP_cons_eq_if_modifyHead]
      split
      · simpa using ih
      · next other =>
        obtain ⟨first, others, cut⟩ :=
          List.exists_cons_of_ne_nil (List.splitOnP_ne_nil (fun byte => byte == slash) rest)
        have distinct : ¬ slash = byte := fun same => other (by simp [same])
        rw [cut] at ih ⊢
        simp_all

/-- The pieces of a path are pieces: none is empty and none has a slash. -/
theorem isPiece_of_mem_pieces (member : name ∈ text.pieces) : name.IsPiece := by
  obtain ⟨part, ne_nil⟩ := List.mem_filter.mp member
  exact ⟨by simpa using ne_nil, slash_notMem_of_mem_splitOn text name part⟩

/-! ## Putting names behind a path -/

/-- A path ends in a slash exactly if it is some path with a slash behind it. -/
theorem endsInSlash_iff : endsInSlash text = true ↔ ∃ front, text = front ++ [slash] := by
  simp [endsInSlash, List.getLast?_eq_some_iff]

/-- What is put behind a path, one name or several, brings its pieces with it. -/
theorem pieces_push_eq (text rel : PathText) :
    pieces (push text rel) = pieces text ++ pieces rel := by
  unfold push
  split
  · next joined =>
    rcases joined with rfl | ended
    · rw [List.nil_append, pieces_nil, List.nil_append]
    · obtain ⟨front, rfl⟩ := endsInSlash_iff.mp ended
      rw [List.append_assoc, List.singleton_append, pieces_append_slash, pieces_append_slash_nil]
  · exact pieces_append_slash text rel

/-- A name put behind a path is the last of its pieces. -/
theorem pieces_push (piece : name.IsPiece) : pieces (push text name) = pieces text ++ [name] := by
  rw [pieces_push_eq, pieces_of_isPiece piece]

theorem push_ne_nil (piece : name.IsPiece) : push text name ≠ [] := by
  unfold push
  split <;> simp [piece.ne_nil]

/-- A path with a name behind it ends in no slash, whatever it ended in before. -/
theorem endsInSlash_push (piece : name.IsPiece) : endsInSlash (push text name) = false := by
  have last : name.getLast? ≠ some slash := fun ends =>
    piece.no_slash (List.mem_of_getLast? ends)
  unfold push endsInSlash
  split
  · simp [List.getLast?_append_of_ne_nil _ piece.ne_nil, last]
  · cases ends : name.getLast? with
    | none => exact absurd (List.getLast?_eq_none_iff.mp ends) piece.ne_nil
    | some byte => simp_all [List.getLast?_append, List.getLast?_cons]

theorem pieces_extend (pieceAll : ∀ name ∈ names, name.IsPiece) :
    pieces (extend text names) = pieces text ++ names := by
  induction names generalizing text with
  | nil => rw [extend_nil, List.append_nil]
  | cons name rest ih =>
      rw [extend_cons, ih fun other member => pieceAll other (List.mem_cons_of_mem _ member),
        pieces_push (pieceAll name List.mem_cons_self), List.append_assoc,
        List.singleton_append]

theorem extend_concat (text : PathText) (names : List Name) (name : Name) :
    extend text (names ++ [name]) = push (extend text names) name :=
  extend_append text names [name]

theorem extend_ne_nil (pieceAll : ∀ name ∈ names, name.IsPiece) (nonempty : names ≠ []) :
    extend text names ≠ [] := by
  obtain ⟨init, last, rfl⟩ := (List.eq_nil_or_concat names).resolve_left nonempty
  rw [List.concat_eq_append, extend_concat]
  exact push_ne_nil (pieceAll last (by simp))

/-- What is put behind a path ends as it ended. -/
theorem push_append (text : PathText) (name back : Name) :
    push text (name ++ back) = push text name ++ back := by
  unfold push
  split <;> simp

/-- A path is in front of what is put behind it. -/
theorem prefix_push (text : PathText) (name : Name) : text <+: push text name := by
  unfold push
  split
  · exact List.prefix_append _ _
  · exact List.prefix_append _ _

/-- Nothing gets lost in length when a name is put behind a path. -/
theorem length_push (text : PathText) (name : Name) :
    text.length + name.length ≤ (push text name).length := by
  unfold push
  split
  · exact Nat.le_of_eq List.length_append.symm
  · rw [List.length_append, List.length_cons]
    omega

/-- The only byte that can come in between is a slash. -/
theorem mem_push {byte : UInt8} (member : byte ∈ push text name) :
    byte ∈ text ∨ byte = slash ∨ byte ∈ name := by
  unfold push at member
  split at member
  · exact (List.mem_append.mp member).imp_right .inr
  · rcases List.mem_append.mp member with inside | behind
    · exact .inl inside
    · exact .inr (List.mem_cons.mp behind)

/-- A path has only bytes of its parts. -/
theorem mem_extend {byte : UInt8} (member : byte ∈ extend text names) :
    byte ∈ text ∨ byte = slash ∨ ∃ name ∈ names, byte ∈ name := by
  induction names generalizing text with
  | nil => exact .inl member
  | cons name rest ih =>
      rcases ih member with inside | cut | ⟨other, behind, inside⟩
      · rcases mem_push inside with first | cut | last
        · exact .inl first
        · exact .inr (.inl cut)
        · exact .inr (.inr ⟨name, List.mem_cons_self, last⟩)
      · exact .inr (.inl cut)
      · exact .inr (.inr ⟨other, List.mem_cons_of_mem _ behind, inside⟩)

/-! ## Putting names together -/

theorem join_cons (name : Name) (some : names ≠ []) :
    join (name :: names) = name ++ slash :: join names := by
  obtain ⟨next, rest, rfl⟩ := List.exists_cons_of_ne_nil some
  rw [join, join, List.intercalate_cons_cons, List.append_assoc, List.singleton_append]

/-- Texts with slashes between them have the pieces of each of them. -/
theorem pieces_join_eq_flatMap (texts : List PathText) :
    pieces (join texts) = texts.flatMap pieces := by
  induction texts with
  | nil => rfl
  | cons text rest ih =>
      by_cases more : rest = []
      · subst more
        simp [join]
      · rw [join_cons text more, pieces_append_slash, ih, List.flatMap_cons]

/-- **Names are read back from where they were joined.** -/
theorem pieces_join (pieceAll : ∀ name ∈ names, name.IsPiece) : pieces (join names) = names := by
  rw [pieces_join_eq_flatMap,
    List.flatMap_congr fun name member => pieces_of_isPiece (pieceAll name member)]
  exact List.flatMap_singleton' names

/-- Names are put behind a path one by one or as one path. -/
theorem extend_eq_push_join (pieceAll : ∀ name ∈ names, name.IsPiece) (nonempty : names ≠ []) :
    extend text names = push text (join names) := by
  induction names generalizing text with
  | nil => exact absurd rfl nonempty
  | cons name rest ih =>
      obtain ⟨piece, others⟩ := List.forall_mem_cons.mp pieceAll
      by_cases more : rest = []
      · subst more
        simp [join]
      · have open_ended : ¬ (push text name = [] ∨ endsInSlash (push text name) = true) := by
          simp [push_ne_nil piece, endsInSlash_push piece]
        rw [extend_cons, ih others more, join_cons name more]
        conv => lhs; rw [push, if_neg open_ended]
        exact (push_append text name _).symm

/-- Names are read back from a path made of them, with a slash in front or without. -/
theorem pieces_ofComponents (rooted : Bool) (pieceAll : ∀ name ∈ names, name.IsPiece) :
    pieces (ofComponents rooted names) = names := by
  cases rooted with
  | false => exact pieces_join pieceAll
  | true => exact (pieces_slash_cons _).trans (pieces_join pieceAll)

/-- Joined names begin with no slash. -/
theorem head?_join (pieceAll : ∀ name ∈ names, name.IsPiece) :
    (join names).head? ≠ some slash := by
  cases names with
  | nil => simp [join]
  | cons name rest =>
      obtain ⟨byte, bytes, rfl⟩ :=
        List.exists_cons_of_ne_nil (pieceAll name List.mem_cons_self).ne_nil
      have piece := (pieceAll _ List.mem_cons_self).no_slash
      by_cases more : rest = []
      · subst more
        simp_all [join, eq_comm]
      · rw [join_cons _ more]
        simp_all [eq_comm]

/-- Whether a path made of names begins at the top is up to its maker. -/
theorem isRooted_ofComponents (rooted : Bool) (pieceAll : ∀ name ∈ names, name.IsPiece) :
    isRooted (ofComponents rooted names) = rooted := by
  cases rooted with
  | false => simp [ofComponents, isRooted, head?_join pieceAll]
  | true => simp [ofComponents, isRooted]

/-- Fewer names make a text that is part of the text of all of them. -/
theorem join_sublist_join {few many : List Name} (sublist : few.Sublist many) :
    (join few).Sublist (join many) := by
  induction sublist with
  | slnil => exact List.Sublist.refl _
  | @cons few many name _ ih =>
      by_cases more : many = []
      · subst more
        exact ih.trans (List.nil_sublist _)
      · rw [join_cons name more]
        exact (ih.trans (List.sublist_cons_self _ _)).trans (List.sublist_append_right _ _)
  | @cons_cons few many name sublist ih =>
      by_cases more : few = []
      · subst more
        by_cases others : many = []
        · subst others
          exact List.Sublist.refl _
        · rw [join_cons name others]
          simp [join]
      · have others : many ≠ [] := by
          rintro rfl
          exact more (List.sublist_nil.mp sublist)
        rw [join_cons name more, join_cons name others]
        exact (ih.cons_cons slash).append_left name

/-- A path made of the pieces of another has only slashes less than that one. -/
theorem join_pieces_sublist (text : PathText) : (join text.pieces).Sublist text := by
  have whole : join (List.splitOn slash text) = text := List.intercalate_splitOn slash
  conv => rhs; rw [← whole]
  exact join_sublist_join List.filter_sublist

/-- A path has the bytes of its pieces. -/
theorem mem_of_mem_pieces {byte : UInt8} (piece : name ∈ text.pieces) (member : byte ∈ name) :
    byte ∈ text := by
  refine (join_pieces_sublist text).subset ?_
  have inJoin : ∀ names : List Name, name ∈ names → byte ∈ join names := by
    intro names inside
    induction names with
    | nil => simp at inside
    | cons first rest ih =>
        by_cases more : rest = []
        · subst more
          obtain rfl := List.mem_singleton.mp inside
          simpa [join] using member
        · rw [join_cons first more]
          rcases List.mem_cons.mp inside with rfl | behind
          · exact List.mem_append_left _ member
          · exact List.mem_append_right _ (List.mem_cons_of_mem _ (ih behind))
  exact inJoin text.pieces piece

/-- Fewer names make a path that is part of the path of all of them. -/
theorem ofComponents_sublist_ofComponents (rooted : Bool) {few many : List Name}
    (sublist : few.Sublist many) :
    (ofComponents rooted few).Sublist (ofComponents rooted many) := by
  cases rooted with
  | false => exact join_sublist_join sublist
  | true => exact (join_sublist_join sublist).cons_cons slash

/-- A path made anew of its own pieces is part of what it was. -/
theorem ofComponents_pieces_sublist (text : PathText) :
    (ofComponents text.isRooted text.pieces).Sublist text := by
  by_cases rooted : text.isRooted = true
  · obtain ⟨rest, rfl⟩ : ∃ rest, text = slash :: rest := by
      simpa [isRooted, List.head?_eq_some_iff] using rooted
    rw [rooted, pieces_slash_cons]
    exact (join_pieces_sublist rest).cons_cons slash
  · rw [Bool.not_eq_true] at rooted
    rw [rooted]
    exact join_pieces_sublist text

/-! ## Taking a path apart from the front -/

/-- A name does not begin at the top. -/
theorem isRooted_of_isPiece (piece : name.IsPiece) : isRooted name = false := by
  have front : name.head? ≠ some slash := fun starts =>
    piece.no_slash (List.mem_of_head? starts)
  simp [isRooted, front]

/-- Where a path begins does not change by what is put behind it. -/
theorem isRooted_push_eq {rel : PathText} (relative : rel.isRooted = false) :
    isRooted (push text rel) = isRooted text := by
  unfold push
  cases text with
  | nil => simpa [isRooted] using relative
  | cons byte rest => split <;> simp [isRooted]

theorem isRooted_push (piece : name.IsPiece) : isRooted (push text name) = isRooted text :=
  isRooted_push_eq (isRooted_of_isPiece piece)

/-- Dots apart, a path is taken apart into its pieces. -/
theorem filter_components (text : PathText) :
    (components text).filter (· ≠ dot) = (pieces text).filter (· ≠ dot) := by
  unfold components
  cases pieces text with
  | nil => rfl
  | cons first rest =>
      dsimp only
      split
      · next dotted => simp [dotted.2]
      · simp [List.filter_cons]

/-- The names that count are among the pieces. -/
theorem mem_pieces_of_mem_components (member : name ∈ text.components) : name ∈ text.pieces := by
  unfold components at member
  cases cut : text.pieces with
  | nil => simp [cut] at member
  | cons first rest =>
      rw [cut] at member
      dsimp only at member
      split at member
      · exact List.mem_cons_of_mem _ (List.mem_of_mem_filter member)
      · rcases List.mem_cons.mp member with rfl | behind
        · exact List.mem_cons_self
        · exact List.mem_cons_of_mem _ (List.mem_of_mem_filter behind)

/-- What is put behind a path is read after it, if it does not start at the top or with a dot. -/
theorem components_push_eq {rel : PathText} (relative : rel.isRooted = false)
    (undotted : dot ∉ rel.components) :
    components (push text rel) = components text ++ components rel := by
  have kept : (pieces rel).filter (· ≠ dot) = components rel := by
    rw [← filter_components]
    refine List.filter_eq_self.mpr fun part member => ?_
    simpa using ne_of_mem_of_not_mem member undotted
  have leading : ∀ first rest, pieces rel = first :: rest → first ≠ dot := by
    rintro first rest cut rfl
    exact undotted (by simp [components, cut, relative])
  rw [← kept, components, components, pieces_push_eq, isRooted_push_eq relative]
  cases pieces text with
  | nil =>
      cases cut : pieces rel with
      | nil => rfl
      | cons first rest => simp [leading first rest cut]
  | cons first rest =>
      rw [List.cons_append]
      simp only [List.filter_append]
      split <;> rfl

/-- A plain name put behind a path counts, and is the last that does. -/
theorem components_push (plain : name.IsPlain) :
    components (push text name) = components text ++ [name] := by
  have alone : components name = [name] := by
    rw [components, pieces_of_isPiece plain.toIsPiece]
    simp [plain.ne_dot]
  have undotted : dot ∉ components name := by
    simpa [alone] using plain.ne_dot.symm
  rw [components_push_eq (isRooted_of_isPiece plain.toIsPiece) undotted, alone]

theorem components_extend (plainAll : ∀ name ∈ names, name.IsPlain) :
    (extend text names).isRooted = text.isRooted ∧
      components (extend text names) = components text ++ names := by
  induction names generalizing text with
  | nil => simp
  | cons name rest ih =>
      obtain ⟨plain, others⟩ := List.forall_mem_cons.mp plainAll
      obtain ⟨rooted, apart⟩ : isRooted (extend (push text name) rest) = isRooted (push text name) ∧
          components (extend (push text name) rest) = components (push text name) ++ rest :=
        ih others
      rw [extend_cons, rooted, apart, isRooted_push plain.toIsPiece, components_push plain,
        List.append_assoc, List.singleton_append]
      exact ⟨rfl, rfl⟩

/-! ## The directory above -/

/-- The path of the directory that holds what a path means. -/
def parent (text : PathText) : PathText :=
  ofComponents text.isRooted text.components.dropLast

namespace IsPlain

variable (plain : text.IsPlain)

include plain

/-- In a plain path all pieces count. -/
theorem components_eq : text.components = text.pieces := by
  have undotted : ∀ piece ∈ text.pieces, piece ≠ dot := fun piece member =>
    (plain piece member).ne_dot
  unfold components
  cases cut : text.pieces with
  | nil => rfl
  | cons first rest =>
      rw [cut] at undotted
      have rest_eq : rest.filter (fun piece => piece ≠ dot) = rest := by
        refine List.filter_eq_self.mpr fun piece member => ?_
        simpa using undotted piece (List.mem_cons_of_mem _ member)
      have first_ne : first ≠ dot := undotted first List.mem_cons_self
      simp only [rest_eq, first_ne, and_false, if_false]

/-- The path above has all pieces but the last. -/
theorem pieces_parent : text.parent.pieces = text.pieces.dropLast := by
  rw [parent, plain.components_eq]
  exact pieces_ofComponents _ fun name member =>
    isPiece_of_mem_pieces (List.dropLast_subset _ member)

theorem isRooted_parent : text.parent.isRooted = text.isRooted := by
  rw [parent, plain.components_eq]
  exact isRooted_ofComponents _ fun name member =>
    isPiece_of_mem_pieces (List.dropLast_subset _ member)

/-- The path above a plain path is plain. -/
theorem parent_isPlain : text.parent.IsPlain := by
  intro piece member
  rw [plain.pieces_parent] at member
  exact plain piece (List.dropLast_subset _ member)

/-- The text above a path is part of the text of the path. -/
theorem parent_sublist : text.parent.Sublist text := by
  rw [parent, plain.components_eq]
  exact (ofComponents_sublist_ofComponents _ (List.dropLast_sublist _)).trans
    (ofComponents_pieces_sublist text)

/-- The directories above a path are the one right above it and those above that. -/
theorem ancestors_eq (some : text.pieces ≠ []) :
    text.ancestors =
      if text.parent = [] then [] else text.parent :: text.parent.ancestors := by
  obtain ⟨init, last, cut⟩ := (List.eq_nil_or_concat text.pieces).resolve_left some
  rw [List.concat_eq_append] at cut
  have parent_eq : text.parent = ofComponents text.isRooted init := by
    rw [parent, plain.components_eq, cut, List.dropLast_concat]
  have above_eq : text.parent.components = init := by
    rw [plain.parent_isPlain.components_eq, plain.pieces_parent, cut, List.dropLast_concat]
  have takes : (List.range init.length).map
        (fun n => ofComponents text.isRooted ((init ++ [last]).take n)) =
      (List.range init.length).map fun n => ofComponents text.isRooted (init.take n) := by
    refine List.map_congr_left fun n member => ?_
    rw [List.take_append_of_le_length (Nat.le_of_lt (List.mem_range.mp member))]
  simp only [ancestors, above_eq, plain.isRooted_parent, plain.components_eq, cut,
    List.length_append, List.length_singleton, List.range_succ, List.map_append,
    List.reverse_append, takes, List.map_cons, List.map_nil, List.take_left,
    List.reverse_singleton, List.singleton_append, List.filter_cons, ← parent_eq]
  by_cases top : text.parent = []
  · have none : init = [] := by
      rw [← above_eq, top]
      rfl
    simp [top, none]
  · simp [top]

/-- The paths above a plain path are plain, and lead part of the way. -/
theorem prefix_of_mem_ancestors {above : PathText} (member : above ∈ text.ancestors) :
    above.IsPlain ∧ above.pieces <+: text.pieces := by
  have above_eq : ∃ n, above = ofComponents text.isRooted (text.pieces.take n) := by
    simp only [ancestors, List.mem_filter, List.mem_reverse, List.mem_map,
      plain.components_eq] at member
    obtain ⟨⟨n, -, rfl⟩, -⟩ := member
    exact ⟨n, rfl⟩
  obtain ⟨n, rfl⟩ := above_eq
  have pieces_eq : (ofComponents text.isRooted (text.pieces.take n)).pieces =
      text.pieces.take n :=
    pieces_ofComponents _ fun name member =>
      isPiece_of_mem_pieces (List.mem_of_mem_take member)
  refine ⟨fun piece member => ?_, ?_⟩
  · rw [pieces_eq] at member
    exact plain piece (List.mem_of_mem_take member)
  · rw [pieces_eq]
    exact List.take_prefix _ _

/-- A plain path with plain names behind it is plain. -/
theorem extend (plainAll : ∀ name ∈ names, name.IsPlain) : (text.extend names).IsPlain := by
  intro piece member
  rw [pieces_extend fun name member => (plainAll name member).toIsPiece,
    List.mem_append] at member
  rcases member with ours | new
  · exact plain piece ours
  · exact plainAll piece new

end IsPlain

end PathText

end FlatArchive
