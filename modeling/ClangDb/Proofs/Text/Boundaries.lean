import ClangDb.Proofs.Text.Ascii
import ClangDb.Proofs.Text.Lines
import Mathlib.Algebra.BigOperators.Group.List.Basic

/-! # Boundaries inside lines

    A text that is read from a file and then cut at the boundaries of Unicode is
    cut twice.  Reading makes one line feed of each ending, so every line of the
    file ends at a boundary and is cut further by itself.  The pieces of a line are
    more than one, or another text than the line, if a boundary stands inside it;
    otherwise the two cuts agree.

    Key theorems:
    - `universal_append_ending`: what reading makes of a line,
    - `lines_universal`: each line is cut by itself,
    - `lines_universal_eq_iff`: when the two cuts agree,
    - `rawLines_flatMap_feed`: lines that are written with line feeds.
-/

namespace ClangDb

namespace Text

variable {s a b line : Text}

/-! ### Endings that are read -/

/-- An ending is read as one line feed. -/
theorem universal_append_ending {e : Text} (ha : Unbroken a)
    (he : Lines.IsEnding (CodePoint.char '\n') (.char '\r') e)
    (hnext : e = [.char '\r'] → b.head? ≠ some (.char '\n')) :
    universal (a ++ (e ++ b)) = a ++ .char '\n' :: universal b := by
  rw [universal_append_of_not_mem ha.2]
  congr 1
  cases he with
  | feed => rfl
  | «return» =>
    show universal (.char '\r' :: b) = _
    rw [universal, if_pos rfl, if_neg (hnext rfl)]
  | both => rfl

/-! ### Cutting at boundaries -/

/-- Holds of a line with no boundary inside. -/
def Whole (line : Text) : Prop := ∀ c ∈ line, isLineBoundary c = false

instance (line : Text) : Decidable (Whole line) :=
  inferInstanceAs (Decidable (∀ c ∈ line, isLineBoundary c = false))

theorem whole_cons {c : CodePoint} : Whole (c :: s) ↔ isLineBoundary c = false ∧ Whole s :=
  List.forall_mem_cons

theorem whole_append : Whole (a ++ b) ↔ Whole a ∧ Whole b :=
  List.forall_mem_append

/-- The endings of a file are boundaries. -/
theorem Whole.unbroken (h : Whole line) : Unbroken line :=
  ⟨fun hmem => absurd (h _ hmem) (by decide), fun hmem => absurd (h _ hmem) (by decide)⟩

theorem lines_cons {c : CodePoint} (hc : c ≠ .char '\r') (s : Text) :
    lines (c :: s) =
      if isLineBoundary c then [] :: lines s
      else match lines s with
        | [] => [[c]]
        | line :: more => (c :: line) :: more :=
  if_neg fun h => hc h.1

/-- No boundary stands inside the lines that are cut. -/
theorem whole_of_mem_lines (h : line ∈ lines s) : Whole line := by
  induction s generalizing line with
  | nil => cases h
  | cons c s ih =>
    rw [lines] at h
    split at h
    · exact ih h
    · split at h
      · rcases List.mem_cons.mp h with rfl | h
        · exact fun c hc => by cases hc
        · exact ih h
      · next hc =>
        have hc : isLineBoundary c = false := Bool.eq_false_iff.mpr hc
        split at h
        · rw [List.mem_singleton.mp h]
          exact whole_cons.mpr ⟨hc, fun c hc => by cases hc⟩
        · next first more hlines =>
          rcases List.mem_cons.mp h with rfl | h
          · exact whole_cons.mpr ⟨hc, ih (hlines ▸ List.mem_cons_self)⟩
          · exact ih (hlines ▸ List.mem_cons_of_mem _ h)

/-- A text that is not empty has a line. -/
theorem lines_ne_nil (h : s ≠ []) : lines s ≠ [] := by
  induction s with
  | nil => exact absurd rfl h
  | cons c s ih =>
    rw [lines]
    split
    · next hpair =>
      -- the second half of the pair is still there
      refine ih ?_
      rintro rfl
      cases hpair.2
    · split
      · exact List.cons_ne_nil _ _
      · split <;> exact List.cons_ne_nil _ _

/-- What stands before a line feed is cut by itself. -/
theorem lines_append_feed (h : .char '\r' ∉ a) (b : Text) :
    lines (a ++ .char '\n' :: b) = lines (a ++ [.char '\n']) ++ lines b := by
  induction a with
  | nil => rfl
  | cons c a ih =>
    have hne : lines (a ++ [.char '\n']) ≠ [] := lines_ne_nil (by simp)
    rw [List.mem_cons, not_or] at h
    rw [List.cons_append, List.cons_append, lines_cons (Ne.symm h.1), lines_cons (Ne.symm h.1),
      ih h.2]
    split
    · rfl
    · -- the code point goes to the first line before the feed, which there is
      cases hlines : lines (a ++ [.char '\n']) with
      | nil => exact absurd hlines hne
      | cons first more => rfl

/-- A line with no boundary inside is one line. -/
theorem Whole.lines_concat_feed (h : Whole line) : lines (line ++ [.char '\n']) = [line] := by
  induction line with
  | nil => rfl
  | cons c line ih =>
    obtain ⟨hc, hline⟩ := whole_cons.mp h
    have hreturn : c ≠ .char '\r' := by
      rintro rfl
      exact absurd hc (by decide)
    rw [List.cons_append, lines_cons hreturn, hc, ih hline]
    rfl

theorem Whole.lines_eq (h : Whole line) (hne : line ≠ []) : lines line = [line] := by
  induction line with
  | nil => exact absurd rfl hne
  | cons c line ih =>
    obtain ⟨hc, hline⟩ := whole_cons.mp h
    have hreturn : c ≠ .char '\r' := by
      rintro rfl
      exact absurd hc (by decide)
    rw [lines_cons hreturn, hc]
    cases line with
    | nil => rfl
    | cons d line =>
      rw [ih hline (List.cons_ne_nil _ _)]
      rfl

/-! ### Both cuts -/

/-- The lines of a file without their endings. -/
def fileLines (s : Text) : List Text := (rawLines s).map fun raw => (splitEnding raw).1

/-- **Each line of a file is cut at boundaries by itself.** -/
theorem lines_universal (s : Text) :
    lines (universal s) = (rawLines s).flatMap fun raw => lines (universal raw) := by
  have hlines := Lines.areLines_cut feed_ne_return s
  rw [← rawLines_eq_cut] at hlines
  conv => lhs; rw [← flatten_rawLines s]
  -- by the lines of the file, each with its ending
  generalize rawLines s = ls at hlines
  induction hlines with
  | nil => rfl
  | last => simp
  | @cons l e more hl he hnext _ ih =>
    have halone := universal_append_ending (b := []) hl he fun _ => by simp
    rw [List.append_nil] at halone
    rw [List.flatten_cons, List.flatMap_cons, List.append_assoc,
      universal_append_ending hl he hnext, lines_append_feed hl.2, ih, halone]
    rfl

/-- A line of a file is a content and an ending, and the last may have no ending. -/
theorem rawLine_cases {raw : Text} (h : raw ∈ rawLines s) :
    (splitEnding raw).1 = raw ∧ raw ≠ [] ∨
      Lines.IsEnding (CodePoint.char '\n') (.char '\r') (splitEnding raw).2 := by
  have hlines := Lines.areLines_cut feed_ne_return s
  rw [← rawLines_eq_cut] at hlines
  have hparts := splitEnding_append raw
  rw [splitEnding_snd] at hparts ⊢
  generalize rawLines s = ls at h hlines
  induction hlines with
  | nil => cases h
  | last hne hl =>
    obtain rfl := List.mem_singleton.mp h
    rw [Lines.ending_of_unbroken hl, List.append_nil] at hparts
    exact .inl ⟨hparts, hne⟩
  | cons hl he _ _ ih =>
    rcases List.mem_cons.mp h with rfl | h
    · rw [Lines.ending_append hl he]
      exact .inr he
    · exact ih h

/-- The pieces of a line of a file: it has at least one, and a line with no boundary inside is its
    only piece. -/
theorem lines_universal_rawLine {raw : Text} (h : raw ∈ rawLines s) :
    lines (universal raw) ≠ [] ∧
      (Whole (splitEnding raw).1 → lines (universal raw) = [(splitEnding raw).1]) := by
  have hunbroken := unbroken_splitEnding h
  rcases rawLine_cases h with ⟨hraw, hne⟩ | hending
  · rw [hraw] at hunbroken ⊢
    rw [universal_eq_self hunbroken.2]
    exact ⟨lines_ne_nil hne, fun hwhole => hwhole.lines_eq hne⟩
  · have hread : universal raw = (splitEnding raw).1 ++ [.char '\n'] := by
      have hread := universal_append_ending (b := []) hunbroken hending fun _ => by simp
      rwa [List.append_nil, splitEnding_append] at hread
    rw [hread]
    exact ⟨lines_ne_nil (by simp), Whole.lines_concat_feed⟩

/-- **The two cuts agree exactly if no boundary stands inside a line of the file.** -/
theorem lines_universal_eq_iff (s : Text) :
    lines (universal s) = fileLines s ↔ ∀ line ∈ fileLines s, Whole line := by
  constructor
  · intro h line hline
    rw [← h] at hline
    exact whole_of_mem_lines hline
  · intro h
    rw [lines_universal, fileLines, List.map_eq_flatMap]
    apply List.flatMap_congr
    intro raw hraw
    exact (lines_universal_rawLine hraw).2 (h _ (List.mem_map_of_mem hraw))

/-- No line of a file is lost. -/
theorem length_fileLines_le (s : Text) : (fileLines s).length ≤ (lines (universal s)).length := by
  have hpieces : ∀ n ∈ (rawLines s).map fun raw => (lines (universal raw)).length, 1 ≤ n := by
    intro n hn
    obtain ⟨raw, hraw, rfl⟩ := List.mem_map.mp hn
    exact List.length_pos_iff.mpr (lines_universal_rawLine hraw).1
  have hsum := List.length_le_sum_of_one_le _ hpieces
  rw [List.length_map] at hsum
  rw [lines_universal, fileLines, List.length_map, List.length_flatMap]
  exact hsum

/-! ### Lines that are written -/

/-- Lines that are written with line feeds are read as they were. -/
theorem rawLines_flatMap_feed {ls : List Text} (h : ∀ line ∈ ls, Unbroken line) :
    rawLines (ls.flatMap (· ++ ofString "\n")) = ls.map (· ++ ofString "\n") := by
  have hlines : Lines.AreLines (CodePoint.char '\n') (.char '\r')
      (ls.map (· ++ ofString "\n")) := by
    induction ls with
    | nil => exact .nil
    | cons line ls ih =>
      obtain ⟨hline, hls⟩ := List.forall_mem_cons.mp h
      exact .cons hline .feed (fun he => absurd he (by decide)) (ih hls)
  rw [rawLines_eq_cut, List.flatMap_def]
  exact Lines.cut_flatten feed_ne_return hlines

end Text

end ClangDb
