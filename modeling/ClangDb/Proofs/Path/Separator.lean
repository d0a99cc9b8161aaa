import ClangDb.Path.Separator
import ClangDb.Proofs.Text.Occurrence
import Mathlib.Data.List.Chain
import Mathlib.Data.List.Induction
import Mathlib.Data.List.TakeWhile

/-! # Runs of separators

    A path is normalized from its end: what stands before a text matters to it
    only by whether both meet in a slash.  So paths that are normalized alike stay
    alike when the same code point is put in front of both, and a pair of
    backslashes, as a JSON string holds it, is normalized like one slash.

    A normalized path has no backslashes and no runs of slashes, and neither has a
    part of it, so normalizing it again changes nothing.  A root loses the slash at
    its end before it is looked for, which changes the answer only if there was one.

    Key theorems:
    - `collapse_cons`: one code point in front,
    - `normalize_replaceAll`: pairs of backslashes,
    - `normalize_eq_self`: normal paths,
    - `isUnderRoot_withoutTrailing`: roots without the slash at their end,
    - `isUnderRoot_append`: what a root and a separator begin,
    - `isUnderRoot_doubled`: paths as a JSON string holds them.
-/

namespace ClangDb

namespace Path

/-! ### One code point in front -/

theorem head?_collapse (s : Text) : (collapse s).head? = s.head? := by
  induction s with
  | nil => rfl
  | cons c s ih =>
    unfold collapse
    split
    · next h => rw [ih, h.1, h.2, List.head?_cons]
    · rfl

/-- A slash is dropped in front of a slash, and nothing else is. -/
theorem collapse_cons (c : CodePoint) (s : Text) :
    collapse (c :: s) =
      if c = .char '/' ∧ (collapse s).head? = some (.char '/') then collapse s
      else c :: collapse s := by
  rw [head?_collapse]
  rfl

theorem collapse_cons_congr (c : CodePoint) {s t : Text} (h : collapse s = collapse t) :
    collapse (c :: s) = collapse (c :: t) := by
  rw [collapse_cons, collapse_cons, h]

theorem normalize_cons_congr (c : CodePoint) {s t : Text} (h : normalize s = normalize t) :
    normalize (c :: s) = normalize (c :: t) :=
  collapse_cons_congr (if c = .char '\\' then .char '/' else c) h

/-- Two backslashes in front are one slash. -/
theorem normalize_pair_cons (s : Text) :
    normalize (.char '\\' :: .char '\\' :: s) = normalize (.char '/' :: s) := by
  show collapse (.char '/' :: .char '/' :: s.substitute '\\' '/') =
    collapse (.char '/' :: s.substitute '\\' '/')
  rw [collapse, if_pos ⟨rfl, rfl⟩]

/-! ### Pairs of backslashes -/

/-- **A path is normalized as it is when its pairs of backslashes are replaced.** -/
theorem normalize_replaceAll (s : Text) :
    normalize (s.replaceAll "\\\\" "/") = normalize s := by
  -- the induction follows the replacement, which takes one code point or a pair
  induction s using List.twoStepInduction with
  | nil => rfl
  | singleton c =>
    have hno : (("\\\\" : String) : Text).isPrefixOf [c] = false := by
      show (CodePoint.char '\\' == c && false) = false
      rw [Bool.and_false]
    rw [Text.replaceAll, Text.replaceFrom, hno]
    rfl
  | cons_cons c d s ihs ihd =>
    by_cases hpair : c = .char '\\' ∧ d = .char '\\'
    · obtain ⟨rfl, rfl⟩ := hpair
      have hreplace : Text.replaceAll (.char '\\' :: .char '\\' :: s) "\\\\" "/" =
          .char '/' :: Text.replaceAll s "\\\\" "/" := by
        unfold Text.replaceAll
        rw [Text.replaceFrom]
        rfl
      rw [hreplace, normalize_pair_cons]
      exact normalize_cons_congr _ ihs
    · have hno : (("\\\\" : String) : Text).isPrefixOf (c :: d :: s) = false := by
        rw [Bool.eq_false_iff]
        intro h
        obtain ⟨rest, hrest⟩ := List.isPrefixOf_iff_prefix.mp h
        obtain ⟨hc, hrest⟩ := List.cons.inj hrest
        exact hpair ⟨hc.symm, (List.cons.inj hrest).1.symm⟩
      have hreplace : Text.replaceAll (c :: d :: s) "\\\\" "/" =
          c :: Text.replaceAll (d :: s) "\\\\" "/" := by
        unfold Text.replaceAll
        rw [Text.replaceFrom, hno]
        rfl
      rw [hreplace]
      exact normalize_cons_congr c (ihd d)

/-! ### Normal paths -/

/-- Holds of a path without backslashes and without runs of slashes. -/
structure IsNormal (path : Text) : Prop where
  noBackslash : .char '\\' ∉ path
  noRun : path.IsChain fun c d => ¬ (c = .char '/' ∧ d = .char '/')

theorem isChain_collapse (s : Text) :
    (collapse s).IsChain fun c d => ¬ (c = .char '/' ∧ d = .char '/') := by
  induction s with
  | nil => exact .nil
  | cons c s ih =>
    rw [collapse_cons]
    by_cases h : c = .char '/' ∧ (collapse s).head? = some (.char '/')
    · rw [if_pos h]
      exact ih
    · rw [if_neg h, List.isChain_cons]
      refine ⟨?_, ih⟩
      intro d hd hboth
      obtain ⟨hc, hslash⟩ := hboth
      rw [hslash] at hd
      exact h ⟨hc, hd⟩

theorem collapse_sublist (s : Text) : (collapse s).Sublist s := by
  induction s with
  | nil => exact .slnil
  | cons c s ih =>
    unfold collapse
    split
    · exact ih.cons c
    · exact ih.cons_cons c

/-- What is normalized is normal. -/
theorem isNormal_normalize (path : Text) : IsNormal (normalize path) := by
  constructor
  · intro h
    exact Text.not_mem_substitute (by decide) ((collapse_sublist _).mem h)
  · exact isChain_collapse _

theorem collapse_eq_self {s : Text}
    (h : s.IsChain fun c d => ¬ (c = .char '/' ∧ d = .char '/')) : collapse s = s := by
  induction s with
  | nil => rfl
  | cons c s ih =>
    obtain ⟨hhead, htail⟩ := List.isChain_cons.mp h
    unfold collapse
    rw [if_neg, ih htail]
    intro hboth
    obtain ⟨hc, hslash⟩ := hboth
    exact hhead _ hslash ⟨hc, rfl⟩

/-- **A normal path is normalized already.** -/
theorem normalize_eq_self {path : Text} (h : IsNormal path) : normalize path = path := by
  unfold normalize
  rw [Text.substitute_of_not_mem h.noBackslash]
  exact collapse_eq_self h.noRun

/-- A beginning of a normal path is normal. -/
theorem IsNormal.of_begins {path root : Text} (h : IsNormal path) (hroot : root <+: path) :
    IsNormal root :=
  ⟨fun hmem => h.noBackslash (hroot.subset hmem), h.noRun.prefix hroot⟩

/-! ### Roots -/

/-- A path without the slashes at its end is a beginning of it. -/
theorem withoutTrailing_begins {path : Text} (h : path ≠ []) : withoutTrailing path <+: path := by
  have hparts := Text.trimRight_append_takeWhile (· = CodePoint.char '/') path
  unfold withoutTrailing
  split
  · next hnil =>
    -- of slashes alone the first stays
    rw [hnil, List.nil_append] at hparts
    cases path with
    | nil => exact absurd rfl h
    | cons c rest =>
      have hc : c ∈ (c :: rest).reverse.takeWhile (· = CodePoint.char '/') := by
        rw [← List.mem_reverse, hparts]
        exact List.mem_cons_self
      have hslash := List.mem_takeWhile_imp hc
      exact ⟨rest, by rw [of_decide_eq_true hslash]; rfl⟩
  · exact Text.trimRight_begins _ path

theorem withoutTrailing_ne_nil (path : Text) : withoutTrailing path ≠ [] := by
  unfold withoutTrailing
  split
  · exact List.cons_ne_nil _ _
  · assumption

/-- A path that does not end in a slash has none to lose. -/
theorem withoutTrailing_eq_self {path : Text} (h : path ≠ []) (hend : path.endsWith "/" = false) :
    withoutTrailing path = path := by
  have hlast : path = path.dropLast ++ [path.getLast h] := (List.dropLast_append_getLast h).symm
  have hslash : path.getLast h ≠ .char '/' := by
    intro he
    have hsuffix : path.endsWith "/" = true := by
      apply List.isSuffixOf_iff_suffix.mpr
      rw [hlast, he]
      exact ⟨path.dropLast, rfl⟩
    rw [hend] at hsuffix
    cases hsuffix
  have htrim : path.trimRight (· = .char '/') = path := by
    rw [hlast]
    exact Text.trimRight_concat (decide_eq_false hslash)
  unfold withoutTrailing
  rw [htrim]
  cases path with
  | nil => exact absurd rfl h
  | cons c rest => rfl

theorem normalize_ne_nil {path : Text} (h : path ≠ []) : normalize path ≠ [] := by
  intro hnil
  have hhead := head?_collapse (path.substitute '\\' '/')
  rw [show collapse (path.substitute '\\' '/') = [] from hnil] at hhead
  cases path with
  | nil => exact h rfl
  | cons c rest => cases hhead

/-- What is under a root is under the root without the slash at its end. -/
theorem isUnderRoot_of_root {file root : Text} (h : root ≠ [])
    (hunder : isUnderRoot file root = true) :
    isUnderRoot file (withoutTrailing (normalize root)) = true := by
  have hbegin := withoutTrailing_begins (normalize_ne_nil h)
  unfold isUnderRoot at hunder ⊢
  rw [normalize_eq_self ((isNormal_normalize root).of_begins hbegin), Text.contains_iff_infix]
  exact hbegin.isInfix.trans (Text.contains_iff_infix.mp hunder)

/-- **A root that does not end in a slash, or is the slash, stays as it is**, and the same
    paths are under it. -/
theorem isUnderRoot_withoutTrailing {root : Text} (file : Text) (h : root ≠ [])
    (hend : (normalize root).endsWith "/" = false ∨ normalize root = Text.ofString "/") :
    isUnderRoot file (withoutTrailing (normalize root)) = isUnderRoot file root := by
  have hroot : withoutTrailing (normalize root) = normalize root := by
    rcases hend with hend | hslash
    · exact withoutTrailing_eq_self (normalize_ne_nil h) hend
    · rw [hslash]
      rfl
  unfold isUnderRoot
  rw [hroot, normalize_eq_self (isNormal_normalize root)]

/-! ### What a root begins -/

/-- Holds of a slash and of a backslash. -/
def IsSeparator (c : CodePoint) : Prop := c = .char '/' ∨ c = .char '\\'

instance : DecidablePred IsSeparator := fun c =>
  inferInstanceAs (Decidable (c = .char '/' ∨ c = .char '\\'))

/-- Both are written as a slash. -/
theorem slash_of_isSeparator {c : CodePoint} (hc : IsSeparator c) :
    (if c = .char '\\' then .char '/' else c) = CodePoint.char '/' := by
  rcases hc with rfl | rfl
  · rfl
  · rfl

/-- What stands before a slash is written alike if the slash is cut off: a slash at its end
    takes the place of those that follow. -/
theorem collapse_begins (a b : Text) : collapse a <+: collapse (a ++ .char '/' :: b) := by
  induction a with
  | nil => exact List.nil_prefix
  | cons c a ih =>
    have hstep : ∀ s : Text, collapse (c :: s) =
        if c = .char '/' ∧ s.head? = some (.char '/') then collapse s else c :: collapse s :=
      fun _ => rfl
    rw [List.cons_append, hstep, hstep]
    cases a with
    | nil =>
      rw [if_neg (by simp), List.nil_append]
      split
      · next hc =>
        -- this slash is dropped, and the next one takes its place
        obtain ⟨rest, hrest⟩ : ∃ rest, collapse (.char '/' :: b) = .char '/' :: rest :=
          List.head?_eq_some_iff.mp (head?_collapse (.char '/' :: b))
        rw [hc.1, hrest]
        exact ⟨rest, rfl⟩
      · exact ⟨_, rfl⟩
    | cons d a =>
      -- both texts go on with the same code point
      rw [List.head?_cons, List.cons_append, List.head?_cons]
      by_cases hc : c = .char '/' ∧ some d = some (.char '/')
      · rw [if_pos hc, if_pos hc]
        exact ih
      · rw [if_neg hc, if_neg hc]
        exact (List.prefix_cons_inj c).mpr ih

/-- A path that a root and a separator begin is normalized to one that the normalized root
    begins. -/
theorem normalize_begins {c : CodePoint} (hc : IsSeparator c) (root rest : Text) :
    normalize root <+: normalize (root ++ c :: rest) := by
  have hbegins := collapse_begins (root.substitute '\\' '/') (rest.substitute '\\' '/')
  have hparts : (root ++ c :: rest).substitute '\\' '/' =
      root.substitute '\\' '/' ++ .char '/' :: rest.substitute '\\' '/' := by
    unfold Text.substitute
    rw [List.map_append, List.map_cons, slash_of_isSeparator hc]
  unfold normalize
  rw [hparts]
  exact hbegins

/-- **What a root and a separator begin is under the root**, however the root ends. -/
theorem isUnderRoot_append {root : Text} {c : CodePoint} (h : root ≠ []) (hc : IsSeparator c)
    (rest : Text) : isUnderRoot (root ++ c :: rest) (withoutTrailing (normalize root)) = true := by
  have hbegin := withoutTrailing_begins (normalize_ne_nil h)
  unfold isUnderRoot
  rw [normalize_eq_self ((isNormal_normalize root).of_begins hbegin), Text.contains_iff_infix]
  exact (hbegin.trans (normalize_begins hc root rest)).isInfix

/-! ### Doubled backslashes -/

/-- A path with every backslash doubled. -/
def doubled (path : Text) : Text := path.flatMap fun c => if c = .char '\\' then [c, c] else [c]

theorem doubled_cons (c : CodePoint) (path : Text) :
    doubled (c :: path) =
      if c = .char '\\' then .char '\\' :: .char '\\' :: doubled path else c :: doubled path := by
  show (if c = .char '\\' then [c, c] else [c]) ++ doubled path = _
  by_cases hc : c = .char '\\'
  · rw [if_pos hc, if_pos hc, hc]
    rfl
  · rw [if_neg hc, if_neg hc]
    rfl

/-- **A path is normalized as it is when its backslashes are doubled.** -/
theorem normalize_doubled (path : Text) : normalize (doubled path) = normalize path := by
  induction path with
  | nil => rfl
  | cons c path ih =>
    rw [doubled_cons]
    split
    · next hc =>
      -- two backslashes are one slash, and so is one
      rw [normalize_pair_cons, hc]
      exact normalize_cons_congr (.char '/') ih
    · exact normalize_cons_congr c ih

/-- The same paths are under a root when their backslashes are doubled. -/
theorem isUnderRoot_doubled (path root : Text) :
    isUnderRoot (doubled path) root = isUnderRoot path root := by
  unfold isUnderRoot
  rw [normalize_doubled]

end Path

end ClangDb
