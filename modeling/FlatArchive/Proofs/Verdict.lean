/-!
# Exact verdicts

A check ends in a value or in a report.  `Decides` says that both ends are
described exactly: the check gives a value if and only if it is a good one, and a
report if and only if it is the right one.  In particular there always is a good
value or a right report, and never both.

To prove it, it is enough to look at one run of the check, whatever it ends in
(`Decides.of_cases`), once good values and right reports are known to be unique
and to exclude each other.  These facts concern the description alone, not the
check.

`Decides.mapM_range` carries the description of one check over to the checks of
all places in a row: the values are good in every place, or the report is the one
on the first place that is bad.
-/

namespace FlatArchive

variable {ε α β : Type}

/-- The good values and the right reports are exactly what a check ends in. -/
structure Decides (result : Except ε α) (good : α → Prop) (bad : ε → Prop) : Prop where
  ok_iff : ∀ a, result = .ok a ↔ good a
  error_iff : ∀ e, result = .error e ↔ bad e

namespace Decides

/-- What ends in a good value or in a right report decides, if there can be only one of them. -/
theorem of_cases {result : Except ε α} {good : α → Prop} {bad : ε → Prop}
    (cases : (∃ a, result = .ok a ∧ good a) ∨ (∃ e, result = .error e ∧ bad e))
    (good_unique : ∀ {a b}, good a → good b → a = b)
    (bad_unique : ∀ {e e'}, bad e → bad e' → e = e')
    (exclusive : ∀ {a e}, good a → ¬ bad e) : Decides result good bad := by
  rcases cases with ⟨a, rfl, isGood⟩ | ⟨e, rfl, isBad⟩
  · refine ⟨fun b => ⟨?_, ?_⟩, fun e => ⟨?_, ?_⟩⟩
    · intro same
      rwa [← Except.ok.inj same]
    · intro isGood'
      rw [good_unique isGood isGood']
    · intro same
      cases same
    · intro isBad
      exact absurd isBad (exclusive isGood)
  · refine ⟨fun b => ⟨?_, ?_⟩, fun e => ⟨?_, ?_⟩⟩
    · intro same
      cases same
    · intro isGood
      exact absurd isBad (exclusive isGood)
    · intro same
      rwa [← Except.error.inj same]
    · intro isBad'
      rw [bad_unique isBad isBad']

variable {result : Except ε α} {good : α → Prop} {bad : ε → Prop}

theorem good_unique (decides : Decides result good bad) {a b : α}
    (first : good a) (second : good b) : a = b :=
  Except.ok.inj (((decides.ok_iff a).mpr first).symm.trans ((decides.ok_iff b).mpr second))

theorem bad_unique (decides : Decides result good bad) {e e' : ε}
    (first : bad e) (second : bad e') : e = e' :=
  Except.error.inj
    (((decides.error_iff e).mpr first).symm.trans ((decides.error_iff e').mpr second))

theorem not_bad (decides : Decides result good bad) {a : α} {e : ε}
    (isGood : good a) : ¬ bad e := by
  intro isBad
  cases ((decides.ok_iff a).mpr isGood).symm.trans ((decides.error_iff e).mpr isBad)

end Decides

/-! ## Checks in a row -/

/-- To change all values at the end is to change each value. -/
theorem map_mapM (check : α → Except ε β) {γ : Type} (change : β → γ) (places : List α) :
    (places.mapM check).map (List.map change) =
      places.mapM fun place => (check place).map change := by
  induction places with
  | nil => rfl
  | cons place rest ih =>
      rw [List.mapM_cons, List.mapM_cons, ← ih]
      cases check place with
      | error e => rfl
      | ok a => cases rest.mapM check <;> rfl

/-- One more check is made after the others, and only if they passed. -/
theorem mapM_range_succ (check : Nat → Except ε α) (n : Nat) :
    (List.range (n + 1)).mapM check =
      ((List.range n).mapM check).bind fun values =>
        (check n).map fun a => values ++ [a] := by
  rw [List.range_succ, List.mapM_append, List.mapM_cons, List.mapM_nil]
  cases (List.range n).mapM check with
  | error e => rfl
  | ok values => cases check n <;> rfl

/-- Checks in a row end in the values of all of them, or in the report of the
first one that ends in a report. -/
theorem mapM_range_cases (check : Nat → Except ε α) (n : Nat) :
    (∃ values, (List.range n).mapM check = .ok values ∧ values.length = n ∧
        ∀ i (inside : i < values.length), check i = .ok values[i]) ∨
      (∃ e, (List.range n).mapM check = .error e ∧
        ∃ i, i < n ∧ check i = .error e ∧ ∀ j, j < i → ∃ a, check j = .ok a) := by
  induction n with
  | zero => exact Or.inl ⟨[], rfl, rfl, fun i inside => absurd inside (Nat.not_lt_zero i)⟩
  | succ n ih =>
      rw [mapM_range_succ]
      rcases ih with ⟨values, ended, length, each⟩ | ⟨e, ended, i, below, report, before⟩
      · rw [ended]
        -- nothing was reported so far, so the last check decides
        cases last : check n with
        | ok a =>
            refine Or.inl ⟨values ++ [a], rfl, by simp [length], ?_⟩
            intro i inside
            rcases Nat.lt_or_ge i values.length with earlier | latest
            · rw [List.getElem_append_left earlier]
              exact each i earlier
            · obtain rfl : i = n := by
                simp only [List.length_append, List.length_singleton] at inside
                omega
              simp [last, length]
        | error e =>
            refine Or.inr ⟨e, rfl, n, Nat.lt_succ_self n, last, ?_⟩
            intro j below
            exact ⟨_, each j (by omega)⟩
      · rw [ended]
        exact Or.inr ⟨e, rfl, i, Nat.lt_succ_of_lt below, report, before⟩

theorem Decides.mapM_range {check : Nat → Except ε α} {good : Nat → α → Prop}
    {bad : Nat → ε → Prop} {n : Nat}
    (each : ∀ i, i < n → Decides (check i) (good i) (bad i)) :
    Decides ((List.range n).mapM check)
      (fun values => values.length = n ∧
        ∀ i (inside : i < values.length), good i values[i])
      (fun e => ∃ i, i < n ∧ bad i e ∧ ∀ j, j < i → ∃ a, good j a) := by
  apply Decides.of_cases
  · rcases mapM_range_cases check n with ⟨values, ended, length, all⟩
      | ⟨e, ended, i, below, report, before⟩
    · refine Or.inl ⟨values, ended, length, ?_⟩
      intro i inside
      exact ((each i (by omega)).ok_iff _).mp (all i inside)
    · refine Or.inr ⟨e, ended, i, below, ((each i below).error_iff e).mp report, ?_⟩
      intro j earlier
      obtain ⟨a, value⟩ := before j earlier
      exact ⟨a, ((each j (by omega)).ok_iff a).mp value⟩
  · rintro a b ⟨lengthA, allA⟩ ⟨lengthB, allB⟩
    apply List.ext_getElem (lengthA.trans lengthB.symm)
    intro i insideA insideB
    exact (each i (by omega)).good_unique (allA i insideA) (allB i insideB)
  · rintro e e' ⟨i, below, isBad, before⟩ ⟨i', below', isBad', before'⟩
    -- the first bad place is one place: before each of the two all is good
    rcases Nat.lt_trichotomy i i' with earlier | rfl | later
    · obtain ⟨a, isGood⟩ := before' i earlier
      exact absurd isBad ((each i below).not_bad isGood)
    · exact (each i below).bad_unique isBad isBad'
    · obtain ⟨a, isGood⟩ := before i' later
      exact absurd isBad' ((each i' below').not_bad isGood)
  · rintro values e ⟨length, all⟩ ⟨i, below, isBad, -⟩
    exact (each i below).not_bad (all i (by omega)) isBad

end FlatArchive
