import ClangDb.Proofs.FileStore.Write

/-! # Paths with a suffix

    A suffix without slashes lengthens the last name of a path and leaves the
    names before it.  So a path and the same path with a suffix lead to two
    places, whatever stands in the store: the one name is not the other, and a
    name with a long suffix is neither a dot nor a double dot.

    Key theorems:
    - `splitAt_append`: the names on a path with a suffix,
    - `locate_append_ne`: the two places,
    - `locate_append`: the name of the place.
-/

namespace ClangDb

namespace Store

variable {s : Store} {p q : Place} {path suffix name : Text}

/-! ### Names with a suffix -/

theorem splitAt_of_not_mem {sep : CodePoint} {t : Text} (h : sep ∉ t) :
    Text.splitAt sep t = [t] := by
  induction t with
  | nil => rfl
  | cons c t ih =>
    rw [List.mem_cons, not_or] at h
    rw [Text.splitAt, if_neg (Ne.symm h.1), ih h.2]

/-- Only the last piece is longer by the suffix. -/
theorem splitAt_append {sep : CodePoint} (h : sep ∉ suffix) (t : Text) :
    ∃ front last, Text.splitAt sep t = front ++ [last] ∧
      Text.splitAt sep (t ++ suffix) = front ++ [last ++ suffix] := by
  induction t with
  | nil => exact ⟨[], [], rfl, splitAt_of_not_mem h⟩
  | cons c t ih =>
    obtain ⟨front, last, ht, hsuffix⟩ := ih
    rw [List.cons_append]
    unfold Text.splitAt
    rw [ht, hsuffix]
    by_cases hc : c = sep
    · rw [if_pos hc, if_pos hc]
      exact ⟨[] :: front, last, rfl, rfl⟩
    · rw [if_neg hc, if_neg hc]
      cases front with
      | nil => exact ⟨[], c :: last, rfl, rfl⟩
      | cons piece front => exact ⟨(c :: piece) :: front, last, rfl, rfl⟩

/-- The last name on a path is longer by a suffix, or the suffix is a name of its own behind a
    slash. -/
theorem namesOn_append (hslash : .char '/' ∉ suffix) (hne : suffix ≠ []) (path : Text) :
    ∃ front last, namesOn (path ++ suffix) = front ++ [last ++ suffix] ∧
      (namesOn path = front ∧ last = [] ∨ namesOn path = front ++ [last]) := by
  obtain ⟨front, last, hpath, hlonger⟩ := splitAt_append hslash path
  refine ⟨front.filter (· ≠ []), last, ?_, ?_⟩
  · simp [namesOn, hlonger, hne]
  · by_cases hlast : last = []
    · exact .inl ⟨by simp [namesOn, hpath, hlast], hlast⟩
    · exact .inr (by simp [namesOn, hpath, hlast])

/-! ### Places -/

theorem follow_append_singleton {names : List Text} {r : Place}
    (h : s.follow p (names ++ [name]) = .ok r) :
    ∃ q, s.follow p names = .ok q ∧ s.enter q name = .ok r := by
  induction names generalizing p with
  | nil =>
    refine ⟨p, rfl, ?_⟩
    rw [List.nil_append, follow] at h
    cases hname : s.enter p name with
    | error e =>
      rw [hname] at h
      cases h
    | ok q =>
      rw [hname] at h
      exact h
  | cons first names ih =>
    rw [List.cons_append, follow] at h
    rw [follow]
    cases hfirst : s.enter p first with
    | error e =>
      rw [hfirst] at h
      cases h
    | ok q =>
      rw [hfirst] at h
      exact ih h

/-- A name that is neither a dot nor a double dot leads further down. -/
theorem eq_of_enter (h : s.enter p name = .ok q) :
    name = (("." : String) : Text) ∧ q = p ∨ name = ((".." : String) : Text) ∧ q = p.dropLast ∨
      q = p ++ [name] := by
  unfold enter at h
  split at h
  · cases h
  · cases h
  · split at h
    · next hdot => exact .inl ⟨hdot, (Except.ok.inj h).symm⟩
    · split at h
      · next hdots => exact .inr (.inl ⟨hdots, (Except.ok.inj h).symm⟩)
      · split at h
        · split at h
          · cases h
          · exact .inr (.inr (Except.ok.inj h).symm)
        · cases h

/-- A long name is no dots. -/
theorem eq_of_enter_long (hlong : 2 < name.length) (h : s.enter p name = .ok q) :
    q = p ++ [name] := by
  rcases eq_of_enter h with ⟨hdot, _⟩ | ⟨hdots, _⟩ | hdown
  · rw [hdot] at hlong
    exact absurd hlong (by decide)
  · rw [hdots] at hlong
    exact absurd hlong (by decide)
  · exact hdown

/-- A name with a long suffix leads elsewhere than the name. -/
theorem enter_append_ne {r r' : Place} (hlong : 2 < suffix.length)
    (h : s.enter p name = .ok r) (h' : s.enter p (name ++ suffix) = .ok r') : r ≠ r' := by
  have hlength : 2 < (name ++ suffix).length := by
    rw [List.length_append]
    omega
  intro heq
  rw [eq_of_enter_long hlength h'] at heq
  have hlengths := congrArg List.length heq
  rw [List.length_append, List.length_singleton] at hlengths
  rcases eq_of_enter h with ⟨_, rfl⟩ | ⟨_, rfl⟩ | rfl
  · omega
  · rw [List.length_dropLast] at hlengths
    omega
  · -- both lead one name down, but the one name is longer
    have hname := (List.cons.inj (List.append_cancel_left heq)).1
    have hnone := congrArg List.length hname
    rw [List.length_append] at hnone
    omega

/-- **A path and the same path with a suffix lead to two places.** -/
theorem locate_append_ne (hslash : .char '/' ∉ suffix) (hlong : 2 < suffix.length)
    (h : s.locate path = .ok p) (h' : s.locate (path ++ suffix) = .ok q) : p ≠ q := by
  obtain ⟨hpath, hfollow⟩ := follow_of_walk h
  obtain ⟨_, hfollow'⟩ := follow_of_walk h'
  -- both start at the same place
  have hstart : (path ++ suffix).startsWith "/" = path.startsWith "/" := by
    cases path with
    | nil => exact absurd rfl hpath
    | cons c r => rfl
  rw [hstart] at hfollow'
  have hne : suffix ≠ [] := by
    intro hnil
    rw [hnil] at hlong
    exact absurd hlong (by decide)
  obtain ⟨front, last, hnames', hnames⟩ := namesOn_append hslash hne path
  rw [hnames'] at hfollow'
  obtain ⟨above, habove, henter'⟩ := follow_append_singleton hfollow'
  rcases hnames with ⟨hnames, rfl⟩ | hnames
  · -- the path ends in a slash and leads to the folder above
    rw [hnames, habove] at hfollow
    obtain rfl := Except.ok.inj hfollow
    intro heq
    rw [List.nil_append] at henter'
    have hlengths := congrArg List.length (heq.trans (eq_of_enter_long hlong henter'))
    rw [List.length_append, List.length_singleton] at hlengths
    omega
  · rw [hnames] at hfollow
    obtain ⟨above', habove', henter⟩ := follow_append_singleton hfollow
    rw [habove] at habove'
    obtain rfl := Except.ok.inj habove'
    exact enter_append_ne hlong henter henter'

/-- **A path with a long suffix leads to a place whose name has the suffix.** -/
theorem locate_append (hslash : .char '/' ∉ suffix) (hlong : 2 < suffix.length)
    (h : s.locate (path ++ suffix) = .ok q) : ∃ above last, q = above ++ [last ++ suffix] := by
  obtain ⟨_, hfollow⟩ := follow_of_walk h
  have hne : suffix ≠ [] := by
    intro hnil
    rw [hnil] at hlong
    exact absurd hlong (by decide)
  obtain ⟨front, last, hnames, _⟩ := namesOn_append hslash hne path
  rw [hnames] at hfollow
  obtain ⟨above, _, henter⟩ := follow_append_singleton hfollow
  have hlength : 2 < (last ++ suffix).length := by
    rw [List.length_append]
    omega
  exact ⟨above, last, eq_of_enter_long hlength henter⟩

end Store

end ClangDb
