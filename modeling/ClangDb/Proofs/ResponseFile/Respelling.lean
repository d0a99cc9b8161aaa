import ClangDb.Proofs.ResponseFile.Conversion

/-! # Respelling the flags of lines again

    The flags of a line are tried one after another, and each one sees what the
    ones before it made of the line.  This is harmless for two reasons: a line
    begins with one flag at most, and a new spelling begins like no flag.  So a
    flag that is tried changes the line exactly if the line began with it at the
    start, the order of the flags does not matter, and a line that was respelled
    is settled: it stays as it is from then on.

    The mandatory includes are settled too.  Converting lines again therefore
    adds the includes once more and leaves all else alone.

    Key theorems:
    - `respell_ne_iff`: when one flag changes a line,
    - `changing_eq_filter`: which flags change a line on the way,
    - `settled_convertLines`: what no flag changes,
    - `convertLines_convertLines`: converting twice.
-/

namespace ClangDb

namespace ResponseFile

variable {dialect : Dialect} {engineDir line : Text} {spelling : Text × Text}
  {order : List (Text × Text)}

/-! ### One flag -/

/-- A flag changes the lines that begin with it. -/
theorem respell_ne_iff (h : spelling ∈ spellings) :
    respell line spelling ≠ line ↔ spelling.1 <+: line := by
  constructor
  · intro hne
    by_contra hbegins
    exact hne (respell_of_not_begins hbegins)
  · intro hbegins hsame
    -- the changed line would still begin with the flag
    obtain ⟨rest, rfl⟩ := hbegins
    rw [respell_append] at hsame
    exact not_begins_respelled h rest spelling h ⟨rest, hsame.symm⟩

/-- Of flags that do not repeat, those that begin a line are one at most. -/
theorem length_filter_begins (hnodup : order.Nodup) (horder : order ⊆ spellings) (line : Text) :
    (order.filter fun spelling => spelling.1 <+: line).length ≤ 1 := by
  have hbegins : ∀ spelling ∈ order.filter fun spelling => spelling.1 <+: line,
      spelling ∈ spellings ∧ spelling.1 <+: line := by
    intro spelling h
    rw [List.mem_filter] at h
    exact ⟨horder h.1, of_decide_eq_true h.2⟩
  have hnodup := hnodup.filter fun spelling => spelling.1 <+: line
  generalize order.filter (fun spelling => spelling.1 <+: line) = found at hbegins hnodup ⊢
  cases found with
  | nil => exact Nat.zero_le 1
  | cons a found =>
    cases found with
    | nil => exact Nat.le_refl 1
    | cons b found =>
      -- the first two are one flag, which cannot stand there twice
      obtain ⟨ha, hlineA⟩ := hbegins a (by simp)
      obtain ⟨hb, hlineB⟩ := hbegins b (by simp)
      have hsame : b = a := spelling_unique ha hb hlineA hlineB
      have hnot : a ∉ b :: found := (List.nodup_cons.mp hnodup).1
      rw [hsame] at hnot
      exact absurd List.mem_cons_self hnot

/-! ### Settled lines -/

/-- Holds of a line that begins with no flag. -/
def Settled (line : Text) : Prop := ∀ spelling ∈ spellings, ¬ spelling.1 <+: line

theorem convertLine_of_settled (h : Settled line) (dialect : Dialect) :
    convertLine dialect line = line := by
  cases dialect with
  | msvc => rfl
  | clang => exact foldl_respell_of_none h

/-- What a line is for clang is settled. -/
theorem settled_convertLine (line : Text) : Settled (convertLine .clang line) := by
  have h : Respells .clang line (convertLine .clang line) := respells_iff.mpr rfl
  generalize convertLine .clang line = line' at h ⊢
  cases h with
  | none h => exact h
  | flag rest h => exact not_begins_respelled h rest

/-- The line of an include is settled: it begins like the new spelling of a flag. -/
theorem settled_includeLine (engineDir header : Text) :
    Settled (includeLine .clang engineDir header) := by
  have hspelling : (Text.ofString "/FI", Text.ofString "-include ") ∈ spellings := by decide
  exact not_begins_respelled hspelling ("\"" ++ (engineDir ++ "/" ++ header) ++ "\"")

/-- **All lines of a conversion for clang are settled.** -/
theorem settled_convertLines {lines : List Text} (h : line ∈ convertLines .clang engineDir lines) :
    Settled line := by
  rcases List.mem_append.mp h with h | h
  · obtain ⟨old, _, rfl⟩ := List.mem_map.mp h
    exact settled_convertLine old
  · obtain ⟨header, _, rfl⟩ := List.mem_map.mp h
    exact settled_includeLine engineDir header

/-- So converting them again changes none, and for MSVC none is ever changed. -/
theorem map_convertLine_convertLines (dialect : Dialect) (engineDir : Text) (lines : List Text) :
    (convertLines dialect engineDir lines).map (convertLine dialect) =
      convertLines dialect engineDir lines := by
  cases dialect with
  | msvc => exact List.map_id' _
  | clang =>
    have hsame : ∀ line ∈ convertLines .clang engineDir lines, convertLine .clang line = line :=
      fun line h => convertLine_of_settled (settled_convertLines h) .clang
    rw [List.map_congr_left hsame, List.map_id']

/-! ### Orders of flags -/

/-- The flags that change a line when they are tried on it one after another. -/
def changing : List (Text × Text) → Text → List (Text × Text)
  | [], _ => []
  | spelling :: order, line =>
    if respell line spelling = line then changing order line
    else spelling :: changing order (respell line spelling)

theorem changing_of_settled (horder : order ⊆ spellings) (h : Settled line) :
    changing order line = [] := by
  induction order with
  | nil => rfl
  | cons spelling order ih =>
    obtain ⟨hspelling, hrest⟩ := List.cons_subset.mp horder
    rw [changing, if_pos (respell_of_not_begins (h spelling hspelling)), ih hrest]

/-- **The flags that change a line on the way are those that it begins with at the start**: what
    one of them makes of the line is changed by no other. -/
theorem changing_eq_filter (hnodup : order.Nodup) (horder : order ⊆ spellings) (line : Text) :
    changing order line = order.filter fun spelling => spelling.1 <+: line := by
  induction order with
  | nil => rfl
  | cons spelling order ih =>
    obtain ⟨hspelling, hrest⟩ := List.cons_subset.mp horder
    obtain ⟨hnot, hnodup⟩ := List.nodup_cons.mp hnodup
    by_cases hbegins : spelling.1 <+: line
    · -- the changed line is settled, and no later flag begins the line itself
      have hnone : ∀ other ∈ order, ¬ other.1 <+: line := by
        intro other hother hbegins'
        have he := spelling_unique hspelling (hrest hother) hbegins hbegins'
        exact hnot (he ▸ hother)
      have hsettled : Settled (respell line spelling) := by
        obtain ⟨rest, rfl⟩ := hbegins
        rw [respell_append]
        exact not_begins_respelled hspelling rest
      have hfilter : order.filter (fun other => other.1 <+: line) = [] :=
        List.filter_eq_nil_iff.mpr fun other hother => by simpa using hnone other hother
      rw [changing, if_neg ((respell_ne_iff hspelling).mpr hbegins),
        changing_of_settled hrest hsettled, List.filter_cons_of_pos (by simpa using hbegins), hfilter]
    · rw [changing, if_pos (respell_of_not_begins hbegins), ih hnodup hrest,
        List.filter_cons_of_neg (by simpa using hbegins)]

/-- Trying the flags in any order makes the same of a line. -/
theorem foldl_respell_eq (horder : ∀ spelling, spelling ∈ order ↔ spelling ∈ spellings)
    (line : Text) : order.foldl respell line = convertLine .clang line := by
  have hsubset : order ⊆ spellings := fun spelling => (horder spelling).mp
  rw [← respells_iff]
  by_cases h : Settled line
  · rw [foldl_respell_of_none fun spelling hspelling => h spelling (hsubset hspelling)]
    exact .none h
  · simp only [Settled, not_forall, not_not] at h
    obtain ⟨spelling, hmem, rest, rfl⟩ := h
    rw [foldl_respell_of_mem hsubset ((horder spelling).mpr hmem)]
    exact .flag rest hmem

/-! ### Converting twice -/

/-- **Respelling is stable.**  What a line is for clang begins with no flag; of the flags one at
    most changes a line, be they tried on the line itself or one after another, and in any order
    they make the same of it; and converting lines a second time adds the mandatory includes once
    more and changes nothing else, in either dialect. -/
theorem convertLines_convertLines (dialect : Dialect) (engineDir : Text) (lines : List Text) :
    (∀ line, Settled (convertLine .clang line)) ∧
      (∀ line, (spellings.filter fun spelling => respell line spelling ≠ line).length ≤ 1) ∧
      (∀ order line, order.Perm spellings →
        (changing order line).length ≤ 1 ∧ order.foldl respell line = convertLine .clang line) ∧
      convertLines dialect engineDir (convertLines dialect engineDir lines) =
        convertLines dialect engineDir lines ++
          mandatoryHeaders.map (includeLine dialect engineDir) := by
  have hnodup : spellings.Nodup := by decide
  refine ⟨settled_convertLine, ?_, ?_, ?_⟩
  · intro line
    have hsame : (spellings.filter fun spelling => respell line spelling ≠ line) =
        spellings.filter fun spelling => spelling.1 <+: line :=
      List.filter_congr fun spelling h => by simp only [respell_ne_iff h]
    rw [hsame]
    exact length_filter_begins hnodup (List.Subset.refl _) line
  · intro order line hperm
    have hnodup' : order.Nodup := hperm.nodup_iff.mpr hnodup
    constructor
    · rw [changing_eq_filter hnodup' hperm.subset]
      exact length_filter_begins hnodup' hperm.subset line
    · exact foldl_respell_eq (fun spelling => hperm.mem_iff) line
  · rw [convertLines, map_convertLine_convertLines]

/-- Lines that each begin with a flag, with another flag behind it. -/
def flaggedLines : List Text := ["/FI/I a", "/I /D", "/D/W", "/W/FI"]

/-- The lines for clang. -/
def respelledLines : List Text := ["-include /I a", "-I /D", "-D/W", "-W/FI"]

theorem convertLines_convertLines_flagged :
    spellings.reverse.Perm spellings ∧
      (changing spellings.reverse "/I /D").length ≤ 1 ∧
      spellings.reverse.foldl respell "/I /D" = Text.ofString "-I /D" ∧
      convertLines .clang "/e" (convertLines .clang "/e" flaggedLines) =
        respelledLines ++ mandatoryHeaders.map (includeLine .clang "/e") ++
          mandatoryHeaders.map (includeLine .clang "/e") := by
  obtain ⟨_, _, horder, hagain⟩ := convertLines_convertLines .clang "/e" flaggedLines
  have hperm : spellings.reverse.Perm spellings := List.reverse_perm _
  obtain ⟨hone, hsame⟩ := horder _ "/I /D" hperm
  refine ⟨hperm, hone, ?_, ?_⟩
  · rw [hsame]
    rfl
  · rw [hagain]
    rfl

end ResponseFile

end ClangDb
