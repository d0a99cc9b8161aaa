import ClangDb.Proofs.Database.Names
import ClangDb.Proofs.Database.Pass
import ClangDb.Proofs.ResponseFile.Arguments

/-! # Whose arguments a response file holds

    Each line that has a job points at the file that the job writes.  The file
    holds the job's own content if the response file that the job is made from
    was left alone, and it keeps it if each later job that leads to the same
    place has the same content.  Of the jobs under one path these are all but
    those whose names clash.

    Names do clash, because they are made from one entry at a time: of two
    sources with one flat name both jobs are carried out and counted, and the
    file is that of the later one.

    Key theorems:
    - `Runs.owns`: what a job writes is its own,
    - `Runs.kept`: and stays, unless a job with another content leads there,
    - `pass_ownsFiles`: both for each line of a database.
-/

namespace ClangDb

namespace Database

open Utf8 (decodeEscaping)

variable {s s' made turn : Store} {job : Job} {jobs before after : List Job}
  {effect : Effect} {effects earlier later : List Effect} {p : Place} {bytes : List UInt8}

/-! ### The content of a job -/

/-- Holds of bytes that are a job's own content: what it has to write before any job has
    run. -/
def Job.Owns (made : Store) (job : Job) (bytes : List UInt8) : Prop :=
  ∃ text, job.content.render made = .ok text ∧ Utf8.encode text = .ok bytes

theorem Job.Owns.unique {bytes' : List UInt8} (h : job.Owns made bytes)
    (h' : job.Owns made bytes') : bytes = bytes' := by
  obtain ⟨text, hrender, hencode⟩ := h
  obtain ⟨text', hrender', hencode'⟩ := h'
  rw [hrender] at hrender'
  obtain rfl := Except.ok.inj hrender'
  exact Except.ok.inj (hencode.symm.trans hencode')

/-- Holds of effects that leave alone the response file that a job is made from. -/
def Job.Undisturbed (made : Store) (effects : List Effect) (job : Job) : Prop :=
  ∀ source engineDir dialect p, job.content = .conversion source engineDir dialect →
    made.locate source = .ok p → ∀ bytes, .written p bytes ∉ effects

theorem Job.Undisturbed.mono (h : job.Undisturbed made effects) (hsub : earlier ⊆ effects) :
    job.Undisturbed made earlier :=
  fun source engineDir dialect p hcontent hlocate bytes hmem =>
    h source engineDir dialect p hcontent hlocate bytes (hsub hmem)

/-- **What a job writes is its own content**, if the jobs before it left its response file
    alone. -/
theorem Runs.owns (h : Runs made before earlier turn) (hdoes : job.Does turn (.written p bytes))
    (hundisturbed : job.Undisturbed made earlier) : job.Owns made bytes := by
  cases hdoes with
  | @written text _ _ hrender hencode _ =>
    refine ⟨text, ?_, hencode⟩
    cases hcontent : job.content with
    | arguments tail =>
      rw [hcontent] at hrender
      exact hrender
    | conversion source engineDir dialect =>
      -- the response file is found at its turn as it was found at first
      have hfind : ∀ e, turn.find source = .ok e ↔ made.find source = .ok e := by
        intro e
        apply h.find_eq_ok_iff
        intro q hlocate
        exact lastAt_eq_none_iff.mpr (hundisturbed source engineDir dialect q hcontent hlocate)
      rw [hcontent] at hrender
      have hturn : ResponseFile.convert turn dialect engineDir source = .ok text := hrender
      show ResponseFile.convert made dialect engineDir source = .ok text
      unfold ResponseFile.convert at hturn ⊢
      cases hfound : turn.find source with
      | error e =>
        rw [hfound] at hturn
        cases hturn
      | ok entry =>
        rw [(hfind entry).mp hfound]
        rw [hfound] at hturn
        exact hturn

/-! ### The file of a job -/

theorem Runs.append (h : Runs s before earlier turn) (h' : Runs turn after later s') :
    Runs s (before ++ after) (earlier ++ later) s' := by
  induction h with
  | nil s => exact h'
  | cons hdoes _ ih => exact .cons hdoes (ih h')

/-- Each file that was written was written by a job at its turn. -/
theorem Runs.exists_of_written (h : Runs s jobs effects s') (hmem : .written p bytes ∈ effects) :
    ∃ before job after earlier later turn, jobs = before ++ job :: after ∧
      effects = earlier ++ .written p bytes :: later ∧ Runs s before earlier turn ∧
      job.Does turn (.written p bytes) := by
  induction h with
  | nil s => cases hmem
  | @cons s s' first jobs effect effects hdoes _ ih =>
    rcases List.mem_cons.mp hmem with rfl | hmem
    · exact ⟨[], first, jobs, [], effects, s, rfl, rfl, .nil s, hdoes⟩
    · obtain ⟨before, job, after, earlier, later, turn, rfl, rfl, hbefore, hjob⟩ := ih hmem
      exact ⟨first :: before, job, after, effect :: earlier, later, turn, rfl, rfl,
        .cons hdoes hbefore, hjob⟩

/-- **The file of a job stays**, if each later job that leads to its place has its content. -/
theorem Runs.kept (hbefore : Runs made before earlier turn)
    (hdoes : job.Does turn (.written p bytes))
    (hafter : Runs (Effect.apply turn (.written p bytes)) after later s')
    (hundisturbed : job.Undisturbed made (earlier ++ .written p bytes :: later))
    (hsame : ∀ k ∈ after, made.locate k.path = .ok p → k.content = job.content) :
    s'.read job.path = .ok bytes := by
  have howns : job.Owns made bytes :=
    hbefore.owns hdoes (hundisturbed.mono (List.subset_append_left _ _))
  -- whatever was written there later has the same bytes
  have hlater : ∀ b, .written p b ∈ later → b = bytes := by
    intro b hmem
    obtain ⟨front, k, back, first, last, turn', rfl, rfl, hfront, hk⟩ :=
      hafter.exists_of_written hmem
    have hruns : Runs made (before ++ job :: front) (earlier ++ .written p bytes :: first) turn' :=
      hbefore.append (.cons hdoes hfront)
    have hplace : made.locate k.path = .ok p := hruns.locate_iff.mp hk.place.2.1
    have hcontent : k.content = job.content := hsame k (by simp) hplace
    have hk' : k.Undisturbed made (earlier ++ .written p bytes :: first) := by
      intro source engineDir dialect q hsource hlocate x hx
      refine hundisturbed source engineDir dialect q (hcontent ▸ hsource) hlocate x ?_
      rcases List.mem_append.mp hx with hx | hx
      · exact List.mem_append_left _ hx
      · rw [← List.cons_append]
        exact List.mem_append_right _ (List.mem_append_left _ hx)
    obtain ⟨text, hrender, hencode⟩ := hruns.owns hk hk'
    rw [hcontent] at hrender
    exact Job.Owns.unique ⟨text, hrender, hencode⟩ howns
  rw [hafter.read_written hdoes]
  cases hlast : lastAt p later with
  | none => rfl
  | some b =>
    rw [hlater b (mem_of_lastAt hlast)]
    rfl

/-! ### The lines of a database -/

/-- Holds of the jobs of a pass: those of one path have one content unless their names clash,
    and inline commands of one path are for one source if its flat name keeps it. -/
structure TellsApart (o : Options) (jobs : List Job) : Prop where
  clash : ∀ j ∈ jobs, ∀ k ∈ jobs, (j.path = k.path ∧ j.content ≠ k.content ↔ Clash o j k)
  source : ∀ j ∈ jobs, ∀ k ∈ jobs, ∀ t u, j.content = .arguments t → k.content = .arguments u →
    KeptFlat j.sourceFile → KeptFlat k.sourceFile → j.path = k.path →
    Path.normalize j.sourceFile = Path.normalize k.sourceFile

/-- Holds of a line of a database, the line that is emitted for it, its job and the effect of
    the job in a run, of which `after` are the later jobs. -/
structure PointsAtOwn (o : Options) (made s' : Store) (effects : List Effect) (raw line : Text)
    (job : Job) (effect : Effect) (after : List Job) : Prop where
  /-- The line points at the response file of the job that is made from its command. -/
  points : ∃ c rest, Command.ofLine? o.dialect (Text.splitEnding raw).1 = some c ∧
    IsJobOf o job.sourceFile c job ∧ line = c.lead job.path ++ rest
  /-- A file that was written holds the job's own content. -/
  own : ∀ p bytes, effect = .written p bytes → job.Undisturbed made effects → job.Owns made bytes
  /-- It holds it to the end of the run. -/
  kept : ∀ p bytes, effect = .written p bytes → job.Undisturbed made effects →
    (∀ k ∈ after, made.locate k.path = .ok p → k.content = job.content) →
    s'.read job.path = .ok bytes

theorem tellsApart_scanLines (o : Options) (lines : List Text) :
    TellsApart o (scanLines o .initial lines).jobs := by
  constructor
  · intro j hj k hk
    obtain ⟨c, hc⟩ := exists_isJobOf_of_mem hj
    obtain ⟨d, hd⟩ := exists_isJobOf_of_mem hk
    exact hc.clash_iff hd
  · intro j hj k hk t u hjt hku hkeptj hkeptk hpath
    obtain ⟨c, hc⟩ := exists_isJobOf_of_mem hj
    obtain ⟨d, hd⟩ := exists_isJobOf_of_mem hk
    have hflat : ∀ {i : Job} {e : Command} {v : Text}, IsJobOf o i.sourceFile e i →
        i.content = .arguments v → i.path = o.outputDir ++ "/" ++ flatName i.sourceFile := by
      intro i e v hi hcontent
      generalize hfile : i.sourceFile = file at hi
      cases hi with
      | inline => rfl
      | copy => cases hcontent
    rw [hflat hc hjt, hflat hd hku, List.append_cancel_left_eq] at hpath
    exact normalize_eq_of_flatName_eq hkeptj hkeptk hpath

/-- A line with a job points at the file of the job, at its turn in a run. -/
theorem pointsAtOwn_of_runs {o : Options} {lines front back : List Text} {raw : Text}
    (h : Runs made (scanLines o .initial lines).jobs effects s')
    (hlines : lines = front ++ raw :: back)
    (hjob : (scanLine o (stateAfter .initial front) raw).job = some job) :
    ∃ line earlier effect later, (scanLines o .initial lines).lines[front.length]? = some line ∧
      effects = earlier ++ effect :: later ∧
      earlier.length = (scanLines o .initial front).jobs.length ∧
      PointsAtOwn o made s' effects raw line job effect
        (scanLines o (nextState (stateAfter .initial front) raw) back).jobs := by
  subst hlines
  have hjobs : (scanLines o .initial (front ++ raw :: back)).jobs =
      (scanLines o .initial front).jobs ++
        job :: (scanLines o (nextState (stateAfter .initial front) raw) back).jobs := by
    rw [scanLines_append]
    show (scanLines o .initial front).jobs ++
      ((scanLine o (stateAfter .initial front) raw).job.toList ++
        (scanLines o (scanLine o (stateAfter .initial front) raw).state back).jobs) = _
    rw [hjob, scanLine_state]
    rfl
  rw [hjobs] at h
  obtain ⟨earlier, effect, later, turn, rfl, hbefore, hdoes, hafter⟩ := h.split
  obtain ⟨line, hredirect⟩ := redirect?_of_job hjob
  obtain ⟨_, _, hcommand⟩ := redirect?_spec hredirect
  obtain ⟨c, rest, hc, hmade, hline⟩ := isJobOf_of_redirectCommand hcommand
  refine ⟨line ++ (Text.splitEnding raw).2, earlier, effect, later, ?_, rfl, hbefore.length_eq,
    ?_, ?_, ?_⟩
  · rw [getElem?_scanLines, List.getElem?_append_right (Nat.le_refl _), Nat.sub_self,
      List.take_left]
    show some (scanLine o (stateAfter .initial front) raw).line = _
    rw [scanLine_line, hredirect]
  · refine ⟨c, rest ++ (Text.splitEnding raw).2, hc, hmade.sourceFile_eq ▸ hmade, ?_⟩
    rw [hline, List.append_assoc]
  · rintro p bytes rfl hundisturbed
    exact hbefore.owns hdoes (hundisturbed.mono (List.subset_append_left _ _))
  · rintro p bytes rfl hundisturbed hsame
    exact hbefore.kept hdoes hafter hundisturbed hsame

/-- **Whose arguments the response files of a pass hold.**  Two jobs have one path and not one
    content exactly if their names clash.  When the pass has a report, each line with a job
    points at the file of that job, which holds the job's own content as long as the response
    file that it is made from is left alone and no later job with another content leads to its
    place. -/
theorem pass_ownsFiles (s : Store) (r : Request) :
    (∀ bytes, TellsApart r.options (r.scan bytes).jobs) ∧
    ∀ report, (pass s r).outcome = .ok report →
      ∃ bytes made effects, s.read r.input = .ok bytes ∧
        s.makeFolders r.options.outputDir = (made, .ok ()) ∧ Store.AddsFolders s made ∧
        Runs made (r.scan bytes).jobs effects (pass s r).store ∧
        report.text = (r.scan bytes).lines.flatten ∧
        ∀ front raw back job, Text.rawLines (decodeEscaping bytes) = front ++ raw :: back →
          (scanLine r.options (stateAfter .initial front) raw).job = some job →
          ∃ line earlier effect later, (r.scan bytes).lines[front.length]? = some line ∧
            effects = earlier ++ effect :: later ∧
            earlier.length = (scanLines r.options .initial front).jobs.length ∧
            PointsAtOwn r.options made (pass s r).store effects raw line job effect
              (scanLines r.options (nextState (stateAfter .initial front) raw) back).jobs := by
  refine ⟨fun bytes => tellsApart_scanLines r.options _, fun report h => ?_⟩
  obtain ⟨bytes, made, effects, hread, hfolders, hruns, rfl⟩ := pass_spec h
  have hadds := Store.addsFolders_makeFolders s r.options.outputDir
  rw [hfolders] at hadds
  exact ⟨bytes, made, effects, hread, hfolders, hadds, hruns, rfl,
    fun _ _ _ _ hlines hjob => pointsAtOwn_of_runs hruns hlines hjob⟩

/-- A database with two sources of one flat name. -/
def clashLines : List Text := [
  "[\x7b\"file\": \"a/b.cpp\",\n", "\"command\": \"\\\"clang++\\\" -DA\",\n", "\"n\": 1\x7d,\n",
  "\x7b\"file\": \"a_b.cpp\",\n", "\"command\": \"\\\"clang++\\\" -DB\",\n", "\"n\": 2\x7d]\n"]

/-- A store that holds the database. -/
def clashStore : Store := storeOf clashLines []

/-- The pass over the sample comes to an end, and tells its jobs apart except where their names
    clash. -/
theorem pass_ownsFiles_sample :
    TellsApart inputRequest.options (inputRequest.scan (inputOf clashLines)).jobs ∧
      ∃ report made effects, (pass clashStore inputRequest).outcome = .ok report ∧
        clashStore.makeFolders inputRequest.options.outputDir = (made, .ok ()) ∧
        Runs made (inputRequest.scan (inputOf clashLines)).jobs effects
          (pass clashStore inputRequest).store := by
  have hok : (pass clashStore inputRequest).outcome.isOk = true := by decide +kernel
  obtain ⟨happart, hfiles⟩ := pass_ownsFiles clashStore inputRequest
  cases hpass : (pass clashStore inputRequest).outcome with
  | error e =>
    rw [hpass] at hok
    cases hok
  | ok report =>
    obtain ⟨bytes, made, effects, hread, hfolders, _, hruns, _⟩ := hfiles report hpass
    obtain rfl := Except.ok.inj ((read_storeOf clashLines []).symm.trans hread)
    exact ⟨happart _, report, made, effects, rfl, hfolders, hruns⟩

/-- Holds of jobs of which any two of one path have one content. -/
def Unclobbered (jobs : List Job) : Prop :=
  ∀ j ∈ jobs, ∀ k ∈ jobs, j.path = k.path → j.content = k.content

/-- The two entries of the sample have other sources and other arguments, but one path.  Both
    are counted as written, and the file that both point at holds the arguments of the second. -/
theorem not_unclobbered_flatSample :
    ¬ Unclobbered (inputRequest.scan (inputOf clashLines)).jobs ∧
      (∃ report, (pass clashStore inputRequest).outcome = .ok report ∧
        report.filesWritten = 2 ∧ report.errors = []) ∧
      ∃ j k, (inputRequest.scan (inputOf clashLines)).jobs = [j, k] ∧
        j.sourceFile ≠ k.sourceFile ∧
        j.Owns clashStore (Utf8.bytesOf "-DA") ∧
        (pass clashStore inputRequest).store.read j.path = .ok (Utf8.bytesOf "-DB") := by
  have hjobs : (inputRequest.scan (inputOf clashLines)).jobs =
      [inputRequest.options.inlineJob "a/b.cpp" " -DA\",",
        inputRequest.options.inlineJob "a_b.cpp" " -DB\","] := by decide +kernel
  refine ⟨?_, ?_, ?_⟩
  · rw [hjobs]
    unfold Unclobbered
    decide +kernel
  · have hcounts : (pass clashStore inputRequest).outcome.toOption.map
        (fun report => (report.filesWritten, report.errors)) = some (2, []) := by decide +kernel
    obtain ⟨report, hreport, hcounts⟩ := Option.map_eq_some_iff.mp hcounts
    obtain ⟨hwritten, herrors⟩ := Prod.mk.inj hcounts
    exact ⟨report, eq_ok_of_toOption hreport, hwritten, herrors⟩
  · have hfile : ((pass clashStore inputRequest).store.read "out/a_b.cpp.rsp").toOption =
        some (Utf8.bytesOf "-DB") := by decide +kernel
    have hname : (inputRequest.options.inlineJob "a/b.cpp" " -DA\",").path = "out/a_b.cpp.rsp" := by
      decide +kernel
    refine ⟨_, _, hjobs, by decide, ⟨_, rfl, ?_⟩, ?_⟩
    · exact Utf8.encode_eq_ok_iff.mpr ⟨Arguments.encodable_body (Utf8.encodable_ofString _),
        by decide +kernel⟩
    · rw [hname]
      exact eq_ok_of_toOption hfile

end Database

end ClangDb
