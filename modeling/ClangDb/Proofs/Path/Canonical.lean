import ClangDb.Proofs.Path.Separator

/-! # Paths with their separators alike

    Two spellings of a path differ in which separators they use and in how many
    stand together.  A path is therefore read as pieces, in which a run of
    separators counts as one however long and mixed it is.  Normalizing writes
    the pieces with a slash for each separator, and reading what it writes gives
    the pieces back.  So a normalized path stands for all of its spellings, and
    for no other path.

    The step is one code point in front of a path.  A separator in front of
    another one changes nothing, so all of the run that it begins goes at once.

    Key theorems:
    - `normalize_separator`, `normalize_plain`: the steps,
    - `normalize_eq_map`, `pieces_normalize`: pieces written and read,
    - `normalize_eq_iff`: paths that are normalized alike,
    - `normalize_isCanonical`: all of it.
-/

namespace ClangDb

namespace Path

variable {c : CodePoint}

/-! ### Pieces -/

/-- What a path is read as: a code point that is no separator, or a run of separators. -/
inductive Piece where
  | plain (c : CodePoint)
  | separator
  deriving DecidableEq, Repr

/-- The code point that a piece is written as. -/
def Piece.written : Piece → CodePoint
  | .plain c => c
  | .separator => .char '/'

/-- The pieces of a path: every run of slashes and backslashes is one separator. -/
def pieces : Text → List Piece
  | [] => []
  | c :: path =>
    if IsSeparator c then .separator :: pieces (path.dropWhile (IsSeparator ·))
    else .plain c :: pieces path
termination_by path => path.length
decreasing_by
  · exact Nat.lt_succ_of_le (List.dropWhile_sublist _).length_le
  · exact Nat.lt_succ_self _

theorem pieces_separator (hc : IsSeparator c) (path : Text) :
    pieces (c :: path) = .separator :: pieces (path.dropWhile (IsSeparator ·)) := by
  rw [pieces, if_pos hc]

theorem pieces_plain (hc : ¬ IsSeparator c) (path : Text) :
    pieces (c :: path) = .plain c :: pieces path := by
  rw [pieces, if_neg hc]

/-! ### One code point in front -/

/-- A code point that is no separator stays. -/
theorem normalize_plain (hc : ¬ IsSeparator c) (path : Text) :
    normalize (c :: path) = c :: normalize path := by
  obtain ⟨hslash, hbackslash⟩ := not_or.mp hc
  show collapse ((if c = .char '\\' then .char '/' else c) :: path.substitute '\\' '/') = _
  rw [if_neg hbackslash, collapse, if_neg fun h => hslash h.1]
  rfl

/-- A separator is a slash in front of what begins with none. -/
theorem normalize_in_front (hc : IsSeparator c) (path : Text) :
    normalize (c :: path) =
      if (normalize path).head? = some (.char '/') then normalize path
      else .char '/' :: normalize path := by
  show collapse ((if c = .char '\\' then .char '/' else c) :: path.substitute '\\' '/') = _
  rw [slash_of_isSeparator hc, collapse_cons]
  simp only [true_and]
  rfl

theorem head?_normalize (hc : IsSeparator c) (path : Text) :
    (normalize (c :: path)).head? = some (.char '/') := by
  rw [normalize, head?_collapse]
  exact congrArg some (slash_of_isSeparator hc)

/-- **A separator is a slash, and takes the run that it begins with it.** -/
theorem normalize_separator (hc : IsSeparator c) (path : Text) :
    normalize (c :: path) = .char '/' :: normalize (path.dropWhile (IsSeparator ·)) := by
  induction path generalizing c with
  | nil =>
    rcases hc with rfl | rfl
    · rfl
    · rfl
  | cons d path ih =>
    rw [normalize_in_front hc]
    by_cases hd : IsSeparator d
    · -- the run goes on, and is the one that `d` begins
      rw [if_pos (head?_normalize hd path), ih hd,
        List.dropWhile_cons_of_pos (by simpa using hd)]
    · have hhead : (normalize (d :: path)).head? ≠ some (.char '/') := by
        rw [normalize_plain hd, List.head?_cons]
        intro h
        exact hd (.inl (Option.some.inj h))
      rw [if_neg hhead, List.dropWhile_cons_of_neg (by simpa using hd)]

/-! ### Pieces written and read -/

/-- **Normalizing writes the pieces of a path.** -/
theorem normalize_eq_map (path : Text) : normalize path = (pieces path).map Piece.written := by
  fun_induction pieces path with
  | case1 => rfl
  | case2 c path hc ih =>
    rw [normalize_separator hc, ih]
    rfl
  | case3 c path hc ih =>
    rw [normalize_plain hc, ih]
    rfl

/-- What is left behind a run of separators begins with none, and so it does when it is
    normalized. -/
theorem dropWhile_normalize (path : Text) :
    (normalize (path.dropWhile (IsSeparator ·))).dropWhile (IsSeparator ·) =
      normalize (path.dropWhile (IsSeparator ·)) := by
  have hhead := List.head?_dropWhile_not (fun c => decide (IsSeparator c)) path
  generalize path.dropWhile (IsSeparator ·) = rest at hhead ⊢
  cases rest with
  | nil => rfl
  | cons c rest =>
    have hc : ¬ IsSeparator c := of_decide_eq_false hhead
    rw [normalize_plain hc, List.dropWhile_cons_of_neg (by simpa using hc)]

/-- **A normalized path has the pieces of the path.** -/
theorem pieces_normalize (path : Text) : pieces (normalize path) = pieces path := by
  fun_induction pieces path with
  | case1 => rw [show normalize [] = [] from rfl, pieces]
  | case2 c path hc ih =>
    -- behind the slash no separator follows, so the run ends there
    rw [normalize_separator hc, pieces_separator (.inl rfl), dropWhile_normalize, ih]
  | case3 c path hc ih =>
    rw [normalize_plain hc, pieces_plain hc, ih]

/-- **Paths are normalized alike exactly if they have the same pieces.** -/
theorem normalize_eq_iff (path other : Text) :
    normalize path = normalize other ↔ pieces path = pieces other := by
  constructor
  · intro h
    calc pieces path = pieces (normalize path) := (pieces_normalize path).symm
      _ = pieces (normalize other) := by rw [h]
      _ = pieces other := pieces_normalize other
  · intro h
    rw [normalize_eq_map, normalize_eq_map, h]

/-! ### The normal form -/

/-- **The normalized path is a canonical form.**  It has no backslash and no two slashes in a row,
    and is normalized already; it is the same for two paths exactly if they differ in their runs of
    separators only; doubled backslashes, as a JSON string holds them, do not change it; and a path
    is under a root exactly if the normal form of the root is a part of the normal form of the
    path, so that nothing else of either counts. -/
theorem normalize_isCanonical (path other root : Text) :
    IsNormal (normalize path) ∧
      normalize (normalize path) = normalize path ∧
      (normalize path = normalize other ↔ pieces path = pieces other) ∧
      normalize (doubled path) = normalize path ∧
      (isUnderRoot path root = true ↔ normalize root <:+: normalize path) ∧
      isUnderRoot (normalize path) (normalize root) = isUnderRoot path root := by
  have hsame : ∀ path, normalize (normalize path) = normalize path := fun path =>
    normalize_eq_self (isNormal_normalize path)
  refine ⟨isNormal_normalize path, hsame path, normalize_eq_iff path other,
    normalize_doubled path, Text.contains_iff_infix, ?_⟩
  unfold isUnderRoot
  rw [hsame, hsame]

end Path

end ClangDb
