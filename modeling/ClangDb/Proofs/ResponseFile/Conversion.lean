import ClangDb.Proofs.Text.Boundaries
import ClangDb.ResponseFile.Conversion

/-! # What a conversion keeps of a response file

    A response file holds one argument a line.  Its conversion writes the lines
    again, for clang with one flag at the beginning respelled, and the mandatory
    includes behind them.  But its lines are not those of the file: the text is cut
    at every boundary of Unicode, and the endings of a file are not the only ones.
    So a form feed or a line separator inside an argument breaks it in two.

    What is written is therefore told by the pieces of each line.  The file comes
    back line by line exactly if no other boundary stands in it.

    Key theorems:
    - `respells_iff`: a line in a dialect,
    - `rawLines_convertBytes`: the lines of a conversion,
    - `keepsLines_iff`: when they are those of the file,
    - `convert_keepsLines_iff`: the conversion of a file.
-/

namespace ClangDb

namespace ResponseFile

variable {dialect : Dialect} {engineDir line line' text : Text} {bytes : List UInt8}
  {spelling : Text × Text}

/-! ### One line -/

/-- Holds of a line and what it is in a dialect: the line itself for MSVC, and for clang the line
    with the flag at its beginning respelled, if it has one. -/
inductive Respells : Dialect → Text → Text → Prop where
  | same (line : Text) : Respells .msvc line line
  | none {line : Text} : (∀ spelling ∈ spellings, ¬ spelling.1 <+: line) →
      Respells .clang line line
  | flag {spelling : Text × Text} (rest : Text) : spelling ∈ spellings →
      Respells .clang (spelling.1 ++ rest) (spelling.2 ++ rest)

theorem respell_append (spelling : Text × Text) (rest : Text) :
    respell (spelling.1 ++ rest) spelling = spelling.2 ++ rest := by
  rw [respell, Text.dropStart?_eq_some_iff.mpr rfl]

theorem respell_of_not_begins (h : ¬ spelling.1 <+: line) : respell line spelling = line := by
  unfold respell
  split
  · next rest hrest => exact absurd ⟨rest, (Text.dropStart?_eq_some_iff.mp hrest).symm⟩ h
  · rfl

theorem foldl_respell_of_none {list : List (Text × Text)}
    (h : ∀ spelling ∈ list, ¬ spelling.1 <+: line) : list.foldl respell line = line := by
  induction list with
  | nil => rfl
  | cons spelling list ih =>
    obtain ⟨hspelling, hlist⟩ := List.forall_mem_cons.mp h
    rw [List.foldl_cons, respell_of_not_begins hspelling, ih hlist]

/-- No flag begins another one. -/
theorem spellings_exclusive :
    ∀ spelling ∈ spellings, ∀ other ∈ spellings, other.1 <+: spelling.1 → other = spelling := by
  decide

/-- A line begins with one flag at most. -/
theorem spelling_unique {other : Text × Text} (hspelling : spelling ∈ spellings)
    (hother : other ∈ spellings) (h : spelling.1 <+: line) (h' : other.1 <+: line) :
    other = spelling := by
  -- of two beginnings of a line one begins the other
  rcases List.prefix_or_prefix_of_prefix h' h with hbegins | hbegins
  · exact spellings_exclusive _ hspelling _ hother hbegins
  · exact (spellings_exclusive _ hother _ hspelling hbegins).symm

/-- No flag begins with the beginning of a new spelling. -/
theorem not_begins_respelled (h : spelling ∈ spellings) (rest : Text) :
    ∀ other ∈ spellings, ¬ other.1 <+: spelling.2 ++ rest := by
  have hheads : ∀ spelling ∈ spellings, spelling.1.head? = some (.char '/') ∧
      spelling.2.head? = some (.char '-') := by
    decide
  rintro other hother ⟨after, hafter⟩
  have hhead := congrArg List.head? hafter
  rw [List.head?_append, List.head?_append, (hheads other hother).1, (hheads spelling h).2,
    Option.some_or, Option.some_or] at hhead
  exact absurd hhead (by decide)

/-- A line with a flag has this flag respelled, and no flag after it. -/
theorem foldl_respell_of_mem {list : List (Text × Text)} (hlist : list ⊆ spellings)
    (h : spelling ∈ list) (rest : Text) :
    list.foldl respell (spelling.1 ++ rest) = spelling.2 ++ rest := by
  induction list with
  | nil => cases h
  | cons other list ih =>
    obtain ⟨hother, hlist⟩ := List.cons_subset.mp hlist
    rw [List.foldl_cons]
    by_cases heq : other = spelling
    · subst heq
      rw [respell_append]
      exact foldl_respell_of_none fun later hlater =>
        not_begins_respelled hother rest later (hlist hlater)
    · have hmem := (List.mem_cons.mp h).resolve_left fun he => heq he.symm
      have hno : ¬ other.1 <+: spelling.1 ++ rest := fun hbegins =>
        heq (spelling_unique (hlist hmem) hother (List.prefix_append _ rest) hbegins)
      rw [respell_of_not_begins hno, ih hlist hmem]

/-- **A line is respelled in one way.** -/
theorem respells_iff : Respells dialect line line' ↔ line' = convertLine dialect line := by
  constructor
  · intro h
    cases h with
    | same => rfl
    | none h => exact (foldl_respell_of_none h).symm
    | flag rest h => exact (foldl_respell_of_mem (List.Subset.refl _) h rest).symm
  · rintro rfl
    cases dialect with
    | msvc => exact .same line
    | clang =>
      by_cases h : ∀ spelling ∈ spellings, ¬ spelling.1 <+: line
      · rw [convertLine, foldl_respell_of_none h]
        exact .none h
      · simp only [not_forall, not_not] at h
        obtain ⟨spelling, hmem, rest, rfl⟩ := h
        rw [convertLine, foldl_respell_of_mem (List.Subset.refl _) hmem]
        exact .flag rest hmem

/-- Respelling neither adds nor takes away a boundary. -/
theorem whole_convertLine_iff : Text.Whole (convertLine dialect line) ↔ Text.Whole line := by
  have hflags : ∀ spelling ∈ spellings, Text.Whole spelling.1 ∧ Text.Whole spelling.2 := by decide
  have h : Respells dialect line (convertLine dialect line) := respells_iff.mpr rfl
  generalize convertLine dialect line = line' at h ⊢
  cases h with
  | same => rfl
  | none => rfl
  | flag rest h =>
    obtain ⟨hold, hnew⟩ := hflags _ h
    rw [Text.whole_append, Text.whole_append, and_iff_right hold, and_iff_right hnew]

theorem forall₂_respells_iff {lines kept : List Text} :
    List.Forall₂ (Respells dialect) lines kept ↔ kept = lines.map (convertLine dialect) := by
  constructor
  · intro h
    induction h with
    | nil => rfl
    | cons hline _ ih => rw [respells_iff.mp hline, ih, List.map_cons]
  · rintro rfl
    rw [List.forall₂_map_right_iff]
    exact List.forall₂_same.mpr fun _ _ => respells_iff.mpr rfl

/-! ### The lines of a conversion -/

/-- The line of a mandatory include is one line if the engine directory is. -/
theorem unbroken_includeLine (hengine : Text.Unbroken engineDir) {header : Text}
    (hheader : header ∈ mandatoryHeaders) (dialect : Dialect) :
    Text.Unbroken (includeLine dialect engineDir header) := by
  have hheaders : ∀ header ∈ mandatoryHeaders, Text.Whole header := by decide
  have hslash : Text.Whole "/" := by decide
  have hpath : Text.Unbroken (engineDir ++ "/" ++ header) :=
    (hengine.append hslash.unbroken).append (hheaders header hheader).unbroken
  have hshape : ∃ before after, Text.Whole before ∧ Text.Whole after ∧
      includeLine dialect engineDir header = before ++ (engineDir ++ "/" ++ header) ++ after := by
    cases dialect with
    | msvc => exact ⟨"/FI\"", "\"", by decide, by decide, rfl⟩
    | clang => exact ⟨"-include \"", "\"", by decide, by decide, rfl⟩
  obtain ⟨before, after, hbefore, hafter, hline⟩ := hshape
  rw [hline]
  exact (hbefore.unbroken.append hpath).append hafter.unbroken

/-- **The lines that a conversion writes**, each with a line feed. -/
theorem rawLines_convertBytes (hbytes : Utf8.decode bytes = .ok text)
    (hengine : Text.Unbroken engineDir) (dialect : Dialect) :
    Text.rawLines (convertBytes dialect engineDir bytes) =
      (convertLines dialect engineDir (Text.lines text.universal)).map
        (· ++ Text.ofString "\n") := by
  rw [convertBytes, Utf8.decodeReplacing_of_decode hbytes]
  apply Text.rawLines_flatMap_feed
  intro line hline
  rcases List.mem_append.mp hline with hline | hline
  · obtain ⟨piece, hpiece, rfl⟩ := List.mem_map.mp hline
    exact (whole_convertLine_iff.mpr (Text.whole_of_mem_lines hpiece)).unbroken
  · obtain ⟨header, hheader, rfl⟩ := List.mem_map.mp hline
    exact unbroken_includeLine hengine hheader dialect

/-- Holds of the text of a response file and another that has its lines in a dialect, the
    mandatory includes behind them, and a line feed after each. -/
def KeepsLines (dialect : Dialect) (engineDir text out : Text) : Prop :=
  ∃ kept, List.Forall₂ (Respells dialect) (Text.fileLines text) kept ∧
    Text.rawLines out =
      (kept ++ mandatoryHeaders.map (includeLine dialect engineDir)).map (· ++ Text.ofString "\n")

/-- **A conversion keeps the lines of a file exactly if no boundary stands inside one of them.** -/
theorem keepsLines_iff (hbytes : Utf8.decode bytes = .ok text)
    (hengine : Text.Unbroken engineDir) (dialect : Dialect) :
    KeepsLines dialect engineDir text (convertBytes dialect engineDir bytes) ↔
      ∀ line ∈ Text.fileLines text, Text.Whole line := by
  have hlines := rawLines_convertBytes hbytes hengine dialect
  constructor
  · rintro ⟨kept, hkept, hraw⟩
    rw [forall₂_respells_iff] at hkept
    -- what is kept are the lines that the text is cut into
    have hfeed : Function.Injective (· ++ Text.ofString "\n") := fun _ _ => List.append_cancel_right
    have hsame := List.append_cancel_right (hfeed.list_map (hraw.symm.trans hlines))
    intro line hline
    have hmem : convertLine dialect line ∈ kept := hkept ▸ List.mem_map_of_mem hline
    rw [hsame] at hmem
    obtain ⟨piece, hpiece, hconverted⟩ := List.mem_map.mp hmem
    have hwhole : Text.Whole (convertLine dialect piece) :=
      whole_convertLine_iff.mpr (Text.whole_of_mem_lines hpiece)
    rw [hconverted] at hwhole
    exact whole_convertLine_iff.mp hwhole
  · intro h
    refine ⟨_, forall₂_respells_iff.mpr rfl, ?_⟩
    rw [hlines, (Text.lines_universal_eq_iff text).mpr h]
    rfl

/-- **A conversion writes the pieces of each line of a file**, each in the dialect, and the
    mandatory includes behind them, all with a line feed.  Every line has a piece, so there are at
    least three lines more than in the file.  The lines of the file are kept, each as one line in
    the one way in which it is respelled, exactly if no boundary stands inside a line; and the
    boundaries that can are those of Unicode that do not end a line of a file. -/
theorem convert_keepsLines_iff {store : Store} {path : Text} {program : Option Program}
    (hfile : store.find path = .ok (.file bytes program)) (hbytes : Utf8.decode bytes = .ok text)
    (hengine : Text.Unbroken engineDir) (dialect : Dialect) :
    ∃ out, convert store dialect engineDir path = .ok out ∧
      Text.rawLines out =
        (((Text.rawLines text).flatMap fun raw => Text.lines raw.universal).map
            (convertLine dialect) ++
          mandatoryHeaders.map (includeLine dialect engineDir)).map (· ++ Text.ofString "\n") ∧
      (Text.fileLines text).length + 3 ≤ (Text.rawLines out).length ∧
      (∀ line line', Respells dialect line line' ↔ line' = convertLine dialect line) ∧
      (KeepsLines dialect engineDir text out ↔
        ∀ line ∈ Text.fileLines text, Text.Whole line) := by
  have hlines := rawLines_convertBytes hbytes hengine dialect
  refine ⟨convertBytes dialect engineDir bytes, by rw [convert, hfile], ?_, ?_,
    fun line line' => respells_iff, keepsLines_iff hbytes hengine dialect⟩
  · rw [hlines, convertLines, Text.lines_universal]
  · have hlength := Text.length_fileLines_le text
    have hheaders : mandatoryHeaders.length = 3 := rfl
    rw [hlines, convertLines]
    simp only [List.length_map, List.length_append, hheaders]
    omega

/-- A response file with a form feed inside its line. -/
def feedText : Text := "-DA\x0cB\n"

/-- A response file whose last line has no ending. -/
def plainText : Text := "/FI\"a b\"\r\n/D"

/-- A store with the two files. -/
def sampleStore : Store := ⟨[], [
  (["feed.rsp"], .file (Utf8.bytesOf feedText) none),
  (["plain.rsp"], .file (Utf8.bytesOf plainText) none)]⟩

theorem convert_keepsLines_iff_sample :
    (∃ out, convert sampleStore .msvc "/e" "feed.rsp" = .ok out ∧
      Text.fileLines feedText = [Text.ofString "-DA\x0cB"] ∧
      (Text.rawLines out).take 2 = [Text.ofString "-DA\n", Text.ofString "B\n"] ∧
      (Text.rawLines out).length = 5 ∧ ¬ KeepsLines .msvc "/e" feedText out) ∧
    ∃ out, convert sampleStore .clang "/e" "plain.rsp" = .ok out ∧
      KeepsLines .clang "/e" plainText out := by
  have hengine : Text.Whole "/e" := by decide
  have hfeed : Utf8.decode (Utf8.bytesOf feedText) = .ok feedText := by decide +kernel
  have hplain : Utf8.decode (Utf8.bytesOf plainText) = .ok plainText := by decide +kernel
  have hfile : sampleStore.find "feed.rsp" = .ok (.file (Utf8.bytesOf feedText) none) := rfl
  have hfile' : sampleStore.find "plain.rsp" = .ok (.file (Utf8.bytesOf plainText) none) := rfl
  obtain ⟨out, hout, hlines, _, _, hkeeps⟩ :=
    convert_keepsLines_iff hfile hfeed hengine.unbroken .msvc
  obtain ⟨out', hout', _, _, _, hkeeps'⟩ :=
    convert_keepsLines_iff hfile' hplain hengine.unbroken .clang
  refine ⟨⟨out, hout, by decide +kernel, ?_, ?_, ?_⟩, out', hout', ?_⟩
  · rw [hlines]
    decide +kernel
  · rw [hlines]
    decide +kernel
  · rw [hkeeps]
    decide +kernel
  · rw [hkeeps']
    decide +kernel

end ResponseFile

end ClangDb
