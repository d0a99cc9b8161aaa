import ClangDb.Proofs.Database.Preservation
import ClangDb.Proofs.Database.Schedule
import ClangDb.Proofs.ResponseFile.Arguments

/-! # Passes that come to their end

    A job that cannot be done is reported, whatever the state of the files that it
    reads and writes, and the jobs after it run all the same.  One thing ends a
    pass early.  The response file of an inline command is named after its
    source, and a name with a null character is no name at all: the store refuses
    it before it looks for the file, and that refusal is not a report.  A response
    file that is referred to is looked for before its copy is named, so that such
    a reference is found missing.

    Everything else that a job is made of can be written, because the lines of a
    database are decoded bytes, and the output folder has been made.

    Key theorems:
    - `IsJobOf.run_eq_aborted_iff`: the jobs that end a pass, in any store,
    - `runs_of_nameable`, `Runs.runJobs_aborted`: all jobs,
    - `pass_completes`: the passes that come to their end, and those that do not.
-/

namespace ClangDb

namespace Database

open Utf8 (decodeEscaping)

/-! ### Usable paths -/

/-- Holds of a job whose path can be a path: its content is a converted response file, or
    there is no null character in the source file that it is named after. -/
def Job.Nameable (job : Job) : Prop :=
  match job.content with
  | .arguments _ => .char '\x00' ∉ job.sourceFile
  | .conversion _ _ _ => True

instance : DecidablePred Job.Nameable
  | ⟨_, _, .arguments _⟩ => inferInstanceAs (Decidable (_ ∉ _))
  | ⟨_, _, .conversion _ _ _⟩ => inferInstanceAs (Decidable True)

theorem graphic_usable :
    Graphic fun c => c ≠ .char '\x00' ∧ (Utf8.encodeUnit? c).isSome = true := by
  intro d hd
  refine ⟨fun he => ?_, rfl⟩
  rw [CodePoint.char.inj he] at hd
  exact absurd hd (by decide)

/-- A flat name keeps all code points but separators and those that are left out. -/
theorem null_mem_flatName {file : Text} (h : .char '\x00' ∈ file) :
    .char '\x00' ∈ flatName file := by
  have hpairs : CodePoint.char '\x00' ∈ file.replaceAll "\\\\" "/" :=
    Text.mem_replaceAll_of_not_mem (by decide) (by decide) h _
  have hkept : CodePoint.char '\x00' ∈ (file.replaceAll "\\\\" "/").filter (!isDropped ·) :=
    List.mem_filter.mpr ⟨hpairs, by decide⟩
  apply List.mem_append_left
  apply Text.mem_substitute_of_ne (by decide)
  exact Text.mem_substitute_of_ne (by decide) hkept _

/-- Nothing is written under a path with a null character. -/
theorem writable_of_null {s : Store} {path : Text} (h : .char '\x00' ∈ path) :
    s.writable path = .error .embeddedNull := by
  have hwalk : ∀ names, s.walk path names = .error .embeddedNull := by
    intro names
    rw [Store.walk, if_pos h]
  unfold Store.writable Store.locate
  split
  · rw [hwalk]
    rfl
  · rw [hwalk]
    rfl

/-! ### One job -/

variable {o : Options} {file : Text} {c : Command} {job : Job}

/-- **A job ends a run exactly if it is not nameable**, whatever the store.  The output
    folder is usable, and the lines that the job is made from have bytes. -/
theorem IsJobOf.run_eq_aborted_iff (hjob : IsJobOf o file c job)
    (hdir : Store.Usable o.outputDir) (hfile : Utf8.Encodable file)
    (htail : Utf8.Encodable c.tail) {s : Store} {e : AccessError} :
    job.run s = .aborted e ↔ ¬ job.Nameable ∧ e = .embeddedNull := by
  rw [Job.run_eq_aborted_iff]
  cases hjob with
  | inline =>
    have hencode : Utf8.encode (Arguments.body c.tail) =
        .ok (Utf8.bytesOf (Arguments.body c.tail)) :=
      Utf8.encode_eq_ok_iff.mpr ⟨Arguments.encodable_body htail, rfl⟩
    by_cases hnull : CodePoint.char '\x00' ∈ file
    · -- the path is refused, and nothing else stands in the way
      have hpath : CodePoint.char '\x00' ∈ (o.inlineJob file c.tail).path :=
        List.mem_append_right _ (null_mem_flatName hnull)
      have hnot : ¬ (o.inlineJob file c.tail).Nameable := fun h => h hnull
      rw [writable_of_null hpath]
      constructor
      · rintro ⟨_, _, _, _, herror, _⟩
        exact ⟨hnot, (Except.error.inj herror).symm⟩
      · rintro ⟨_, rfl⟩
        exact ⟨_, _, rfl, hencode, rfl, id⟩
    · have hname : Store.Usable (flatName file) := by
        apply graphic_usable.flatName
        exact Store.usable_iff.mpr ⟨hnull, hfile⟩
      have hslash : Store.Usable ("/" : String) := graphic_usable.ofString (by decide)
      have hpath : Store.Usable (o.inlineJob file c.tail).path :=
        forall_mem_append (forall_mem_append hdir hslash) hname
      constructor
      · rintro ⟨_, _, _, _, _, hanswer⟩
        exact absurd (Store.isAnswer_writable_iff.mpr hpath) hanswer
      · rintro ⟨hnot, _⟩
        exact absurd hnull hnot
  | @copy before rest path after _ _ =>
    constructor
    · rintro ⟨text, _, hrender, _, _, hanswer⟩
      -- what was found has a usable path, and its copy adds a suffix to it
      have hrender' : ResponseFile.convert s o.dialect o.engineDir (Path.normalize path) =
          .ok text := hrender
      have hsource : Store.Usable (Path.normalize path) := by
        unfold ResponseFile.convert at hrender'
        split at hrender'
        · next hfind =>
          obtain ⟨p, hlocate, _⟩ := Store.find_eq_ok_iff.mp hfind
          apply (Store.isAnswer_walk_iff (s := s) _).mp
          show Store.IsAnswer (s.locate (Path.normalize path))
          rw [hlocate]
          trivial
        · cases hrender'
      have hpath : Store.Usable (copyName o.dialect (Path.normalize path)) :=
        graphic_usable.copyName hsource o.dialect
      exact absurd (Store.isAnswer_writable_iff.mpr hpath) hanswer
    · rintro ⟨hnot, _⟩
      exact absurd trivial hnot

/-! ### All jobs -/

variable {s s' made : Store} {r : Request} {bytes : List UInt8} {jobs before : List Job}
  {effects : List Effect}

/-- In a scheduled job nothing but a name ends a run. -/
theorem run_eq_aborted_of_scheduled (hdir : Store.Usable r.options.outputDir)
    (h : job ∈ (r.scan bytes).jobs) {e : AccessError} :
    job.run s = .aborted e ↔ ¬ job.Nameable ∧ e = .embeddedNull := by
  obtain ⟨a, raw, b, hlines, hscan⟩ := mem_jobs_scanLines h
  obtain ⟨c, hc, hawaits, hjob⟩ := isJobOf_of_scanLine hscan
  -- each line is a part of the text that the bytes were decoded to
  have hline : ∀ x ∈ a ++ raw :: b, Utf8.Encodable (Text.splitEnding x).1 := by
    intro x hx
    rw [← hlines] at hx
    have hencodable := Utf8.encodable_of_mem_rawLines (Utf8.encodable_decodeEscaping bytes) x hx
    rw [← Text.splitEnding_append x] at hencodable
    exact (Utf8.encodable_append.mp hencodable).1
  have hfile : Utf8.Encodable job.sourceFile := by
    obtain ⟨x, hx, hname⟩ := hawaits.exists_mem
    intro d hd
    exact hline x (List.mem_append_left _ hx) d (mem_of_mem_fileOn? hname hd)
  have htail : Utf8.Encodable c.tail := by
    obtain ⟨value, front, hkey, hend, _⟩ := Command.ofLine?_spec hc
    intro d hd
    apply hline raw (by simp) d
    rw [Text.eq_of_cut? hkey, Text.eq_of_cut? hend]
    simp [hd]
  exact hjob.run_eq_aborted_iff hdir hfile htail

/-- Jobs of which none ends the run come to their end. -/
theorem runs_of_nameable (hjobs : ∀ job ∈ jobs, ∀ s e, job.run s ≠ .aborted e) (s : Store) :
    ∃ effects s', Runs s jobs effects s' := by
  rcases runJobs_spec s jobs with ⟨s', effects, hruns, _⟩ |
    ⟨before, job, after, _, turn, e, rfl, _, haborted, _⟩
  · exact ⟨effects, s', hruns⟩
  · exact absurd haborted (hjobs job (by simp) turn e)

/-- A job that ends the run leaves what the jobs before it left, and no job after it runs. -/
theorem Runs.runJobs_aborted (h : Runs s before effects s') {e : AccessError}
    (hjob : job.run s' = .aborted e) (after : List Job) :
    runJobs s (before ++ job :: after) = (s', .error e) := by
  induction h with
  | nil s =>
    show runJobs s (job :: after) = (s, .error e)
    simp only [runJobs, hjob]
  | @cons s s' first jobs effect effects hdoes _ ih =>
    have hrun := hdoes.run
    have hmore := ih hjob
    rw [List.cons_append]
    cases effect with
    | written p bytes =>
      have hmore' : runJobs (s.put p (.file bytes none)) (jobs ++ job :: after) =
        (s', .error e) := hmore
      simp only [runJobs, hrun, hmore']
    | failed error =>
      have hmore' : runJobs s (jobs ++ job :: after) = (s', .error e) := hmore
      simp only [runJobs, hrun, hmore']

/-- **A pass that can start comes to its end if all its jobs are nameable**: it has a report,
    each job has its effect at its turn, and the errors of those that failed are reported.
    The first job that is not nameable ends the pass; the jobs before it have had their
    effects, and there is no report. -/
theorem pass_completes (hengine : r.engineDir.trim.isEmpty = false)
    (hread : s.read r.input = .ok bytes)
    (hfolders : s.makeFolders r.options.outputDir = (made, .ok ())) :
    ((∀ job ∈ (r.scan bytes).jobs, job.Nameable) →
      ∃ report effects, (pass s r).outcome = .ok report ∧
        Runs made (r.scan bytes).jobs effects (pass s r).store ∧
        report.text = (r.scan bytes).lines.flatten ∧
        report.filesWritten = effects.countP (·.error?.isNone) ∧
        report.errors = effects.filterMap Effect.error?) ∧
    ∀ before job after, (r.scan bytes).jobs = before ++ job :: after →
      (∀ j ∈ before, j.Nameable) → ¬ job.Nameable →
      (pass s r).outcome = .error (.badPath .embeddedNull) ∧
        ∃ effects, Runs made before effects (pass s r).store := by
  have hdir : Store.Usable r.options.outputDir := Store.usable_of_makeFolders (by rw [hfolders])
  have hnever : ∀ job ∈ (r.scan bytes).jobs, job.Nameable →
      ∀ turn e, job.run turn ≠ .aborted e := by
    intro job hmem hnameable turn e haborted
    exact ((run_eq_aborted_of_scheduled hdir hmem).mp haborted).1 hnameable
  rw [pass_eq_passLines hengine hread hfolders]
  constructor
  · intro hnameable
    obtain ⟨effects, s', hruns⟩ :=
      runs_of_nameable (fun job hmem => hnever job hmem (hnameable job hmem)) made
    have heq := hruns.runJobs_eq
    unfold Request.scan at heq
    simp only [passLines, heq]
    exact ⟨_, effects, rfl, hruns, rfl, rfl, rfl⟩
  · intro before job after hjobs hbefore hnot
    obtain ⟨effects, s', hruns⟩ := runs_of_nameable
      (fun j hj => hnever j (by rw [hjobs]; exact List.mem_append_left _ hj) (hbefore j hj)) made
    have haborted : job.run s' = .aborted .embeddedNull :=
      (run_eq_aborted_of_scheduled hdir (by rw [hjobs]; simp)).mpr ⟨hnot, rfl⟩
    have heq := hruns.runJobs_aborted haborted after
    rw [← hjobs] at heq
    unfold Request.scan at heq
    simp only [passLines, heq]
    exact ⟨trivial, effects, hruns⟩

/-- A database with a response file that is missing and two inline commands, the first of
    which is for a file. -/
def completionLines (file : Text) : List Text := [
  "[\x7b\"file\": \"c.cpp\",\n", "\"command\": \"\\\"clang++\\\" @\\\"c.rsp\\\"\",\n",
  "\"n\": 1\x7d,\n", "\x7b\"file\": \"" ++ file ++ "\",\n",
  "\"command\": \"\\\"clang++\\\" -DA\",\n", "\"n\": 2\x7d,\n",
  "\x7b\"file\": \"b.cpp\",\n", "\"command\": \"\\\"clang++\\\" -DB\",\n", "\"n\": 3\x7d]\n"]

/-- A store that holds the database. -/
def completionStore (file : Text) : Store := storeOf (completionLines file) []

/-- The pass over a database with the file of a usable name writes two files and reports one
    error; with a null character in the name it ends before it writes any. -/
theorem pass_completes_sample :
    (∃ report, (pass (completionStore "a.cpp") inputRequest).outcome = .ok report ∧
      report.errors.length = 1 ∧ report.filesWritten = 2) ∧
    (pass (completionStore "a\x00.cpp") inputRequest).outcome =
      .error (.badPath .embeddedNull) := by
  have hfolders : ∀ file, ∃ made, (completionStore file).makeFolders
      inputRequest.options.outputDir = (made, .ok ()) := fun _ => ⟨_, rfl⟩
  constructor
  · have hnameable : ∀ job ∈ (inputRequest.scan (inputOf (completionLines "a.cpp"))).jobs,
        job.Nameable := by decide +kernel
    obtain ⟨made, hmade⟩ := hfolders "a.cpp"
    obtain ⟨report, effects, hok, _⟩ := (pass_completes (by decide +kernel) rfl hmade).1 hnameable
    have hcounts : (pass (completionStore "a.cpp") inputRequest).outcome.toOption.map
        (fun report => (report.errors.length, report.filesWritten)) = some (1, 2) := by
      decide +kernel
    rw [hok] at hcounts
    obtain ⟨herrors, hwritten⟩ := Prod.mk.inj (Option.some.inj hcounts)
    exact ⟨report, hok, herrors, hwritten⟩
  · obtain ⟨made, hmade⟩ := hfolders "a\x00.cpp"
    have hcontents : (inputRequest.scan (inputOf (completionLines "a\x00.cpp"))).jobs.map
        (fun job => decide job.Nameable) = [true, false, true] := by decide +kernel
    obtain ⟨first, jobs, hjobs, hfirst, hrest⟩ := List.map_eq_cons_iff.mp hcontents
    obtain ⟨second, after, rfl, hsecond, _⟩ := List.map_eq_cons_iff.mp hrest
    have hbefore : ∀ j ∈ [first], j.Nameable := by
      intro j hj
      rw [List.mem_singleton.mp hj]
      exact of_decide_eq_true hfirst
    exact ((pass_completes (by decide +kernel) rfl hmade).2 [first] second after hjobs hbefore
      (of_decide_eq_false hsecond)).1

end Database

end ClangDb
