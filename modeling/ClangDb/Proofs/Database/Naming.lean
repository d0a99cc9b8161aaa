import ClangDb.Proofs.Database.Escapes
import ClangDb.Proofs.Database.Scan
import ClangDb.Proofs.Path.Separator

/-! # What a redirected command names

    The path of a response file reaches the database through an escape, and the
    file store as it is.  A job's path has no backslash, so the two are one path:
    the literal that a redirected line holds can be read, and it means the
    compiler, a reference to the path of the job, and for an inline command the
    source file.

    Key theorems:
    - `ofLine?_commandLine`: the command on a line that is one literal,
    - `noBackslash_of_redirected`: the paths of jobs,
    - `newBody_of_redirected`: the new literal,
    - `unescape_redirected`: what it means.
-/

namespace ClangDb

namespace Database

open Json

variable {indent pad body rest front back file line' : Text} {dialect : Dialect} {o : Options}
  {job : Job}

/-! ### The command on a line -/

theorem quote_not_mem_of_blank {s : Text} (hs : ∀ c ∈ s, c.isBlank = true) : .char '"' ∉ s :=
  fun hmem => absurd (hs _ hmem) (by decide)

/-- The key of a command behind an indent. -/
theorem cut?_commandKey (hindent : ∀ c ∈ indent, c.isBlank = true) (value : Text) :
    Text.cut? commandKey (indent ++ (commandKey ++ value)) = some (indent, value) := by
  have hcut : Text.cut? commandKey (indent ++ (commandKey ++ value)) = _ :=
    Text.cut?_append_of_not_mem (quote_not_mem_of_blank hindent) (commandKey ++ value)
  rw [hcut, show Text.cut? (.char '"' :: _) (commandKey ++ value) = some ([], value) from
    Text.cut?_append_self commandKey value]
  simp

/-- **A compiler on the line is one in the text of the command.** -/
theorem ofLine?_commandLine {c : Command} (hindent : ∀ c ∈ indent, c.isBlank = true)
    (hpad : ∀ c ∈ pad, c.isBlank = true) (hbody : IsBody body) (hrest : .char '"' ∉ rest)
    (hc : Command.ofLine? dialect (indent ++ (commandKey ++ (pad ++ quoted body rest))) = some c) :
    ∃ front back, Text.cut? dialect.compilerEnd body = some (front, back) ∧
      c = ⟨indent, .char '"' :: (front ++ dialect.compilerEnd), back ++ .char '"' :: rest⟩ := by
  have hkey := cut?_commandKey hindent (pad ++ quoted body rest)
  obtain ⟨value, before, hkey', hend, _⟩ := Command.ofLine?_spec hc
  obtain ⟨_, rfl⟩ := Prod.mk.inj (Option.some.inj (hkey'.symm.trans hkey))
  have hfound : Text.contains (body ++ .char '"' :: rest) dialect.compilerEnd = true := by
    rw [cut?_compilerEnd_append dialect hpad, Option.map_eq_some_iff] at hend
    obtain ⟨_, hcut, _⟩ := hend
    exact Option.isSome_iff_exists.mpr ⟨_, hcut⟩
  have hinside : body.contains dialect.compilerEnd = true := by
    rw [Text.contains_iff_infix] at hfound ⊢
    exact (infix_of_quoted (endsEscaped_compilerEnd dialect) hbody hrest).mp hfound
  obtain ⟨⟨front, back⟩, hcut⟩ := Option.isSome_iff_exists.mp hinside
  refine ⟨front, back, hcut, ?_⟩
  have hc' := ofLine?_quote hkey hpad (Text.cut?_append hcut (.char '"' :: rest))
  exact Option.some.inj (hc.symm.trans hc')

/-! ### The paths of jobs -/

theorem noBackslash_copyName {path : Text} (h : .char '\\' ∉ path) :
    .char '\\' ∉ copyName dialect path := by
  unfold copyName
  split
  · simpa [Text.ofString] using h
  · split
    · simpa [Text.ofString] using h
    · simpa [Text.ofString] using h

theorem noBackslash_flatName (file : Text) : .char '\\' ∉ flatName file := by
  intro hmem
  rcases List.mem_append.mp hmem with hmem | hmem
  · rcases Text.mem_substitute hmem with ⟨hmem, _⟩ | h
    · exact Text.not_mem_substitute (by decide) hmem
    · exact absurd h (by decide)
  · exact absurd hmem (by decide)

/-- What is left out of a flat name is not in it. -/
theorem not_mem_flatName_of_isDropped {c : CodePoint} (hc : isDropped c = true) (file : Text) :
    c ∉ flatName file := by
  intro hmem
  rcases List.mem_append.mp hmem with hmem | hmem
  · rcases Text.mem_substitute hmem with ⟨hmem, _⟩ | rfl
    · rcases Text.mem_substitute hmem with ⟨hmem, _⟩ | rfl
      · have hkept := (List.mem_filter.mp hmem).2
        rw [hc] at hkept
        cases hkept
      · exact absurd hc (by decide)
    · exact absurd hc (by decide)
  · have hend : ∀ d ∈ Text.ofString ".rsp", isDropped d = false := by decide
    rw [hend c hmem] at hc
    cases hc

/-- **The path of a job has no backslash**, unless the output folder has one. -/
theorem noBackslash_of_redirected {line : Text} (hdir : .char '\\' ∉ o.outputDir)
    (h : redirectCommand o file line = .redirected line' job) : .char '\\' ∉ job.path := by
  -- a reference is normalized first, and the name of an inline job has underscores for separators
  obtain ⟨c, _, _, ⟨_, _, referenced, _, _, _, hpath, _⟩ | ⟨_, hpath, _⟩⟩ := redirectCommand_spec h
  · rw [hpath]
    exact noBackslash_copyName (Path.isNormal_normalize referenced).noBackslash
  · rw [hpath, List.mem_append, List.mem_append, not_or, not_or]
    exact ⟨⟨hdir, by decide⟩, noBackslash_flatName file⟩

/-! ### What a command means -/

/-- A reference to a response file. -/
theorem unescape_reference {path : Text} (hpath : .char '\\' ∉ path) (s : Text) :
    unescape (" @\\\"" ++ Path.escape path ++ "\\\"" ++ s) =
      " @\"" ++ path ++ "\"" ++ unescape s := by
  have hopen : ∀ s : Text, unescape (" @\\\"" ++ s) = " @\"" ++ unescape s := by
    intro s
    show unescape (.char ' ' :: .char '@' :: .char '\\' :: .char '"' :: s) = _
    rw [unescape_plain (by decide), unescape_plain (by decide), unescape_quote]
    rfl
  have hclose : ∀ s : Text, unescape ("\\\"" ++ s) = "\"" ++ unescape s := unescape_quote
  rw [List.append_assoc, List.append_assoc, hopen, (spelled_escape path).1.unescape_append,
    unescape_escape, slashed_of_not_mem hpath, hclose]
  simp

/-- The text that a command gets: its compiler, a reference to a response file, and what is
    named behind it. -/
def newBody (compiler path named : Text) : Text :=
  compiler ++ (" @\\\"" ++ Path.escape path ++ "\\\"" ++ named)

/-- **The new literal of a command whose compiler is found in the old one.**  The source file is
    named in it if the old one held no reference. -/
theorem newBody_of_redirected {line : Text}
    (hc : Command.ofLine? o.dialect line =
      some ⟨indent, .char '"' :: (front ++ o.dialect.compilerEnd), back ++ .char '"' :: rest⟩)
    (hback : IsBody back) (hrest : .char '"' ∉ rest)
    (h : redirectCommand o file line = .redirected line' job) :
    line' = indent ++ (commandKey ++ .char ' ' ::
      quoted (newBody (front ++ o.dialect.compilerEnd) job.path
        (if back.contains reference then [] else .char ' ' :: Path.escape file)) ",") := by
  obtain ⟨c, hc', _, hkind⟩ := redirectCommand_spec h
  obtain rfl := Option.some.inj (hc'.symm.trans hc)
  -- the search for a reference runs on over the end of the literal and finds nothing there
  have hsame : back.contains reference = (back ++ .char '"' :: rest).contains reference := by
    rw [Bool.eq_iff_iff, Text.contains_iff_infix, Text.contains_iff_infix]
    exact (infix_of_quoted endsEscaped_reference hback hrest).symm
  rw [hsame, Text.contains]
  rcases hkind with ⟨_, _, _, _, hcut, _, _, rfl⟩ | ⟨hcut, _, rfl⟩
  · rw [hcut]
    simp [newBody, Command.lead, Text.ofString]
  · rw [hcut]
    simp [newBody, Command.lead, Text.ofString]

theorem isBody_newBody {compiler named : Text} (hcompiler : IsBody compiler) (path : Text)
    (hnamed : IsBody named) : IsBody (newBody compiler path named) :=
  hcompiler.append ((spelled_reference path).1.append hnamed)

theorem unescape_newBody {compiler path : Text} (hcompiler : IsBody compiler)
    (hpath : .char '\\' ∉ path) (named : Text) :
    unescape (newBody compiler path named) =
      unescape compiler ++ (" @\"" ++ path ++ "\"" ++ unescape named) := by
  rw [newBody, hcompiler.unescape_append, unescape_reference hpath]

/-- The literal behind the key of a line. -/
theorem readLiteral?_commandLine (hbody : IsBody body) (indent rest : Text) :
    readLiteral? (indent ++ (commandKey ++ .char ' ' :: quoted body rest))
      (indent ++ commandKey).length = some body := by
  rw [← List.append_assoc, readLiteral?, List.drop_left, literal?,
    List.dropWhile_cons_of_pos (by decide), List.dropWhile_cons_of_neg (by decide)]
  simp [hbody.literalBody?]

/-- A line that is redirected gets the same content whether or not its entry is skipped. -/
theorem scanLine_of_redirect? {s : State} {raw : Text}
    (h : redirect? o s raw = some (line', job)) :
    (scanLine o s raw).line = line' ++ (Text.splitEnding raw).2 ∧
      (scanLine { o with skipEngine := false } s raw).job = some job ∧
      (scanLine o s raw).job = if o.skips s.currentFile then none else some job := by
  have hsame : redirect? { o with skipEngine := false } s raw = redirect? o s raw := rfl
  have hkept : Options.skips { o with skipEngine := false } s.currentFile = false :=
    Bool.and_false _
  rw [scanLine_line, scanLine_job, scanLine_job, hsame, h, hkept]
  exact ⟨rfl, rfl, rfl⟩

/-- **A redirected command names the file that its job writes.**  The line keeps its indent and
    its key, its literal can be read, and what the literal means is the old command up to its
    compiler, a reference to the path of the job and, where the old command had none, the source
    file with slashes.  A skipped entry gets the same line. -/
theorem unescape_redirected {s : State} {raw comma ending : Text}
    (hraw : Text.splitEnding raw = (indent ++ (commandKey ++ (pad ++ quoted body comma)), ending))
    (hindent : ∀ c ∈ indent, c.isBlank = true) (hpad : ∀ c ∈ pad, c.isBlank = true)
    (hbody : IsBody body) (hcomma : comma = [] ∨ comma = ",")
    (hfile : IsPathBody s.currentFile) (hdir : .char '\\' ∉ o.outputDir)
    (h : redirect? o s raw = some (line', job)) :
    ∃ front back body',
      Text.cut? o.dialect.compilerEnd body = some (front, back) ∧
      (scanLine o s raw).line =
        indent ++ (commandKey ++ .char ' ' :: quoted body' (.char ',' :: ending)) ∧
      readLiteral? (scanLine o s raw).line (indent ++ commandKey).length = some body' ∧
      (scanLine { o with skipEngine := false } s raw).job = some job ∧
      (scanLine o s raw).job = (if o.skips s.currentFile then none else some job) ∧
      unescape body' = unescape (front ++ o.dialect.compilerEnd) ++
        (" @\"" ++ job.path ++ "\"" ++
          if back.contains reference then []
          else .char ' ' :: (unescape s.currentFile).substitute '\\' '/') := by
  obtain ⟨_, _, hredirected⟩ := redirect?_spec h
  obtain ⟨hline, hjob⟩ := scanLine_of_redirect? h
  rw [hraw] at hredirected hline
  have hrest : .char '"' ∉ comma := by
    rcases hcomma with rfl | rfl <;> decide
  -- the compiler is found in the literal, which may be cut behind it
  obtain ⟨c, hc, _⟩ := redirectCommand_spec hredirected
  obtain ⟨front, back, hcut, rfl⟩ := ofLine?_commandLine hindent hpad hbody hrest hc
  obtain ⟨hfront, hback⟩ : IsBody (front ++ o.dialect.compilerEnd) ∧ IsBody back :=
    (Text.eq_of_cut? hcut ▸ hbody).of_endsEscaped (endsEscaped_compilerEnd o.dialect)
  have hnew := newBody_of_redirected hc hback hrest hredirected
  have hnamed : IsBody (if back.contains reference then []
      else .char ' ' :: Path.escape s.currentFile) := by
    split
    · exact .nil
    · exact .plain (by decide) (by decide) (spelled_escape s.currentFile).1
  rw [hnew] at hline
  have hline' : (scanLine o s raw).line = indent ++ (commandKey ++ .char ' ' ::
      quoted (newBody (front ++ o.dialect.compilerEnd) job.path
        (if back.contains reference then [] else .char ' ' :: Path.escape s.currentFile))
        (.char ',' :: ending)) := by
    rw [hline]
    simp [Text.ofString]
  refine ⟨front, back, _, hcut, hline', ?_, hjob.1, hjob.2, ?_⟩
  · rw [hline']
    exact readLiteral?_commandLine (isBody_newBody hfront job.path hnamed) indent _
  · rw [unescape_newBody hfront (noBackslash_of_redirected hdir hredirected)]
    congr 2
    split
    · rfl
    · rw [unescape_plain (by decide), unescape_escape, hfile.slashed]

/-- The command of a source file of the engine, with an indent and a line ending. -/
def engineLine : Text := "\t\"command\": \"\\\"clang++\\\" -c\",\n"

/-- Entries of the engine get no response file. -/
def engineOptions : Options := ⟨"out", "C:/e", true, .clang, false⟩

/-- The source file is known. -/
def engineState : State := ⟨.command, "C:\\\\e\\\\a.c"⟩

/-- The response file that is made if the entry is not skipped. -/
def engineJob : Job := ⟨"out/C_e_a.c.rsp", "C:\\\\e\\\\a.c", .arguments " -c\","⟩

theorem unescape_redirected_engineLine :
    (scanLine engineOptions engineState engineLine).job = none ∧
      ∃ body', readLiteral? (scanLine engineOptions engineState engineLine).line 11 = some body' ∧
        unescape body' = "\"clang++\" @\"out/C_e_a.c.rsp\" C:/e/a.c" := by
  have hread : literalBody? "\\\"clang++\\\" -c\"" =
      some (Text.ofString "\\\"clang++\\\" -c", []) := by
    decide +kernel
  have hfile : IsPathBody engineState.currentFile := by
    unfold engineState
    repeat first | exact .nil | refine .backslash ?_ | refine .plain (by decide) (by decide) ?_
  have hredirect : redirect? engineOptions engineState engineLine =
      some (Text.ofString "\t\"command\": \"\\\"clang++\\\" @\\\"out/C_e_a.c.rsp\\\" C:/e/a.c\",",
        engineJob) := by
    decide +kernel
  have hraw : Text.splitEnding engineLine =
      ("\t" ++ (commandKey ++ (" " ++ quoted "\\\"clang++\\\" -c" ",")), Text.ofString "\n") := by
    decide +kernel
  obtain ⟨front, back, body', hcut, _, hread, _, hjob, hmeans⟩ :=
    unescape_redirected hraw (by decide) (by decide) (literalBody?_eq_some_iff.mp hread).1 (.inr rfl) hfile
      (by decide) hredirect
  obtain ⟨rfl, rfl⟩ : front = "\\\"" ∧ back = " -c" :=
    Prod.mk.inj (Option.some.inj (hcut.symm.trans (by decide +kernel)))
  exact ⟨hjob.trans (if_pos (by decide +kernel)), body', hread, hmeans.trans (by decide +kernel)⟩

end Database

end ClangDb
