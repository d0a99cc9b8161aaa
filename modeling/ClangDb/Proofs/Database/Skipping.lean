import ClangDb.Proofs.Database.Accounting
import ClangDb.Proofs.Database.Workers
import ClangDb.Proofs.Path.Separator

/-! # What skipping leaves alone

    The text of a pass is made from its input, its output folder and its dialect.
    Whether the entries of the engine are skipped, and what the engine is, decides
    for a redirected line only whether its job is scheduled; and what the jobs find
    in the store, how many workers they have and when each takes its turn is asked
    after all lines have been scanned.

    So two passes over the same bytes with the same output folder and dialect give
    the same text, and of the jobs of one that skips nothing those remain that are
    not for a source under the engine directory.  It is looked for without the
    slashes at its end, and then more sources can be under it than under the
    directory as it was given.

    Key theorems:
    - `Options.Alike.redirect?_eq`: one line,
    - `Options.Alike.lines_eq`: all lines,
    - `jobs_of_skipEngine`: the jobs that remain,
    - `passWith_ignoresSkipping`: passes.
-/

namespace ClangDb

namespace Database

variable {o o' : Options} {r r' : Request} {bytes : List UInt8}

/-! ### One line -/

/-- Holds of options that redirect alike. -/
structure Options.Alike (o o' : Options) : Prop where
  outputDir : o.outputDir = o'.outputDir
  dialect : o.dialect = o'.dialect

/-- The path of a job and the source that it is for. -/
def Job.target (job : Job) : Text × Text := (job.path, job.sourceFile)

/-- **A line is redirected alike**, to a job of the same path and source. -/
theorem Options.Alike.redirect?_eq (h : o.Alike o') (s : State) (raw : Text) :
    (redirect? o s raw).map (fun found => (found.1, found.2.target)) =
      (redirect? o' s raw).map fun found => (found.1, found.2.target) := by
  unfold redirect?
  by_cases hcond : isCommand raw = true ∧ s.phase = .command
  · rw [if_pos hcond, if_pos hcond]
    unfold redirectCommand
    rw [h.dialect, h.outputDir]
    -- both options look for the same parts of the line
    cases Command.ofLine? o'.dialect (Text.splitEnding raw).1 with
    | none => rfl
    | some c =>
      cases hreference : Text.cut? reference c.tail with
      | none => simp only [hreference, Option.map_some, Job.target]
      | some parts =>
        obtain ⟨before, rest⟩ := parts
        cases hquote : Text.cut? escapedQuote rest with
        | none => simp only [hreference, hquote]
        | some parts => simp only [hreference, hquote, Option.map_some, Job.target]
  · rw [if_neg hcond, if_neg hcond]

/-- The new line and the target of its job do not depend on the engine. -/
theorem Options.Alike.line_eq (h : o.Alike o') (s : State) (raw : Text) :
    (scanLine o s raw).line = (scanLine o' s raw).line := by
  have hredirect := h.redirect?_eq s raw
  rw [scanLine_line, scanLine_line]
  cases hfound : redirect? o s raw with
  | none =>
    rw [hfound] at hredirect
    rw [Option.map_eq_none_iff.mp hredirect.symm]
  | some found =>
    rw [hfound] at hredirect
    obtain ⟨found', hfound', heq⟩ := Option.map_eq_some_iff.mp hredirect.symm
    rw [hfound']
    simp only [(Prod.mk.inj heq).1]

/-! ### All lines -/

/-- **All lines are scanned to the same lines.** -/
theorem Options.Alike.lines_eq (h : o.Alike o') (s : State) (lines : List Text) :
    (scanLines o s lines).lines = (scanLines o' s lines).lines := by
  induction lines generalizing s with
  | nil => rfl
  | cons raw lines ih =>
    simp only [scanLines]
    rw [h.line_eq, scanLine_state, scanLine_state, ih]

/-- The jobs of the redirected lines do not depend on what is skipped or reported. -/
theorem redirections_congr (h : o.Alike o') (hengine : o.engineDir = o'.engineDir) (s : State)
    (lines : List Text) : redirections o s lines = redirections o' s lines := by
  induction lines generalizing s with
  | nil => rfl
  | cons raw lines ih =>
    have hredirect : redirect? o s raw = redirect? o' s raw := by
      unfold redirect? redirectCommand
      rw [h.dialect, h.outputDir, hengine]
    rw [redirections, redirections, hredirect, ih]

theorem Request.alike_options (hdir : r.outputDir = r'.outputDir)
    (hdialect : r.dialect = r'.dialect) : r.options.Alike r'.options := by
  constructor
  · unfold Request.options
    rw [hdir]
  · exact hdialect

/-- **With the engine skipped the jobs remain that are not for one of its sources**, in their
    order. -/
theorem jobs_of_skipEngine (hdir : r.outputDir = r'.outputDir)
    (hdialect : r.dialect = r'.dialect) (hengine : r.engineDir = r'.engineDir)
    (hskip : r.skipEngine = true) (hall : r'.skipEngine = false) :
    (r.scan bytes).jobs =
      (r'.scan bytes).jobs.filter fun job => !Path.isUnderRoot job.sourceFile r.options.engineDir := by
  have hsame : r.options.engineDir = r'.options.engineDir := by
    unfold Request.options
    rw [hengine]
  have hserves : r.options.serves =
      fun job => !Path.isUnderRoot job.sourceFile r.options.engineDir := by
    funext job
    show (!(Path.isUnderRoot job.sourceFile r.options.engineDir && r.skipEngine)) = _
    rw [hskip, Bool.and_true]
  have hserves' : r'.options.serves = fun _ => true := by
    funext job
    show (!(Path.isUnderRoot job.sourceFile r'.options.engineDir && r'.skipEngine)) = _
    rw [hall, Bool.and_false]
    rfl
  unfold Request.scan
  rw [jobs_scanLines, jobs_scanLines, hserves', List.filter_true, hserves,
    redirections_congr (Request.alike_options hdir hdialect) hsame]

/-! ### Passes -/

/-- Holds of a request and a report of a pass over some bytes, whatever else is in the store,
    however many workers there are and in whatever order they take their turns. -/
def Request.Reports (r : Request) (bytes : List UInt8) (report : Report) : Prop :=
  ∃ workers order s p, s.read r.input = .ok bytes ∧ passWith workers order s r = some p ∧
    p.outcome = .ok report

/-- The text and the number of entries of a report are those of the scan. -/
theorem Request.Reports.spec {report : Report} (h : r.Reports bytes report) :
    report.text = (r.scan bytes).lines.flatten ∧
      report.entries = countCommands (Text.rawLines (Utf8.decodeEscaping bytes)) := by
  obtain ⟨workers, order, s, p, hread, hpass, hreport⟩ := h
  obtain ⟨made, lines, tally, hstart, _, rfl⟩ := passWith_spec hpass hreport
  obtain ⟨_, bytes', hread', _, rfl⟩ := start_eq_ok_iff.mp hstart
  obtain rfl := Except.ok.inj (hread.symm.trans hread')
  exact ⟨rfl, rfl⟩

/-- **Skipping and the file system have no part in the text of a pass.**  Two passes over the
    same bytes with the same output folder and dialect have the same text and as many entries.
    If nothing else is different about them, the one that skips the engine schedules the jobs
    of the other, in their order, without those for a source under the engine directory as it
    is looked for; and that is the directory as it was given unless it ends in a slash. -/
theorem passWith_ignoresSkipping (bytes : List UInt8) (hdir : r.outputDir = r'.outputDir)
    (hdialect : r.dialect = r'.dialect) :
    (∀ report report', r.Reports bytes report → r'.Reports bytes report' →
      report.text = report'.text ∧ report.entries = report'.entries) ∧
    (r.engineDir = r'.engineDir → r.skipEngine = true → r'.skipEngine = false →
      (r.scan bytes).jobs = (r'.scan bytes).jobs.filter
        fun job => !Path.isUnderRoot job.sourceFile r.options.engineDir) ∧
    (r.engineDir.trim.isEmpty = false → ∀ file,
      (Path.isUnderRoot file r.engineDir = true →
        Path.isUnderRoot file r.options.engineDir = true) ∧
      ((Path.normalize r.engineDir).endsWith "/" = false ∨
          Path.normalize r.engineDir = Text.ofString "/" →
        Path.isUnderRoot file r.options.engineDir = Path.isUnderRoot file r.engineDir)) := by
  refine ⟨?_, jobs_of_skipEngine hdir hdialect, ?_⟩
  · intro report report' hreport hreport'
    rw [hreport.spec.1, hreport'.spec.1, hreport.spec.2, hreport'.spec.2]
    unfold Request.scan
    rw [(Request.alike_options hdir hdialect).lines_eq]
    exact ⟨rfl, rfl⟩
  · intro hblank file
    have hne : r.engineDir ≠ [] := by
      intro hnil
      rw [hnil] at hblank
      cases hblank
    exact ⟨Path.isUnderRoot_of_root hne, Path.isUnderRoot_withoutTrailing file hne⟩

/-- Two workers over another store, who skip nothing and report each entry. -/
def workersRequest : Request := { inputRequest with verbose := true }

/-- A store that holds the database and the response file that it refers to. -/
def workersStore : Store := storeOf accountLines [(["c.rsp"], .file (Utf8.bytesOf "/DA\n") none)]

/-- One pass skips an entry and misses a response file, and another does neither.  The texts are
    the same. -/
theorem passWith_ignoresSkipping_sample :
    ∃ report report', accountRequest.Reports (inputOf accountLines) report ∧
      workersRequest.Reports (inputOf accountLines) report' ∧
      (report.filesWritten, report.errors.length) = (2, 1) ∧
      (report'.filesWritten, report'.errors.length) = (4, 0) ∧
      report.text = report'.text ∧ report.entries = report'.entries ∧
      (accountRequest.scan (inputOf accountLines)).jobs =
        (workersRequest.scan (inputOf accountLines)).jobs.filter
          fun job => !Path.isUnderRoot job.sourceFile accountRequest.options.engineDir := by
  have hcounts : (passWith 1 [] accountStore accountRequest).bind (fun p =>
      p.outcome.toOption.map fun report => (report.filesWritten, report.errors.length)) =
        some (2, 1) := by decide +kernel
  have hcounts' : (passWith 2 [3, 1, 0, 2] workersStore workersRequest).bind (fun p =>
      p.outcome.toOption.map fun report => (report.filesWritten, report.errors.length)) =
        some (4, 0) := by decide +kernel
  obtain ⟨p, hpass, hcounts⟩ := Option.bind_eq_some_iff.mp hcounts
  obtain ⟨report, hreport, hcounts⟩ := Option.map_eq_some_iff.mp hcounts
  obtain ⟨p', hpass', hcounts'⟩ := Option.bind_eq_some_iff.mp hcounts'
  obtain ⟨report', hreport', hcounts'⟩ := Option.map_eq_some_iff.mp hcounts'
  have hfirst : accountRequest.Reports (inputOf accountLines) report :=
    ⟨1, [], accountStore, p, read_storeOf _ _, hpass, eq_ok_of_toOption hreport⟩
  have hsecond : workersRequest.Reports (inputOf accountLines) report' :=
    ⟨2, [3, 1, 0, 2], workersStore, p', read_storeOf _ _, hpass', eq_ok_of_toOption hreport'⟩
  have hdir : accountRequest.outputDir = workersRequest.outputDir := rfl
  have hdialect : accountRequest.dialect = workersRequest.dialect := rfl
  obtain ⟨hsame, hjobs, _⟩ := passWith_ignoresSkipping (inputOf accountLines) hdir hdialect
  obtain ⟨htext, hentries⟩ := hsame report report' hfirst hsecond
  exact ⟨report, report', hfirst, hsecond, hcounts, hcounts', htext, hentries,
    hjobs rfl rfl rfl⟩

/-- A database with a source beside the engine. -/
def besideLines : List Text := [
  "[\x7b\"file\": \"/engine-x/a.cpp\",\n", "\"command\": \"\\\"clang++\\\" -DA\",\n",
  "\"n\": 1\x7d]\n"]

/-- A pass that is given the engine directory with a slash at its end. -/
def slashRequest : Request := { inputRequest with engineDir := "/engine/" }

/-- The source of the sample is not under the engine directory as it was given, but the pass
    that skips the engine schedules no job for it. -/
theorem not_filtered_slashSample :
    (pass (storeOf besideLines []) { slashRequest with skipEngine := true }).outcome.isOk = true ∧
      (pass (storeOf besideLines []) slashRequest).outcome.isOk = true ∧
      ({ slashRequest with skipEngine := true }.scan (inputOf besideLines)).jobs.map Job.target ≠
        ((slashRequest.scan (inputOf besideLines)).jobs.filter fun job =>
          !Path.isUnderRoot job.sourceFile slashRequest.engineDir).map Job.target := by
  refine ⟨?_, ?_, ?_⟩ <;> decide +kernel

end Database

end ClangDb
