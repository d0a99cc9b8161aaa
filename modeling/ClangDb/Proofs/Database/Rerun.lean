import ClangDb.Proofs.Database.Accounting
import ClangDb.Proofs.Database.Commutation
import ClangDb.Proofs.FileStore.Remaking

/-! # Passes that run again

    A pass that runs again finds the output folder made and the response files
    written.  A response file that it writes lies in the output folder or beside
    the one that it is made from, so its path leads through folders only, and no
    job is in the way of another.  If the jobs write neither the input nor a
    response file that one of them is made from, they all do the second time what
    they did the first time: the report is the same, and what was written is
    written again.

    With several workers the jobs that write at one place have to write the same
    there, for the order of the turns may be another one the second time.  And the
    output folder has to be there after it was made, since one that ends in a dot
    can be missed without a failure; then the second pass is refused.

    Key theorems:
    - `IsJobOf.folder_of_leadsThrough`: the way to a response file,
    - `clear_of_spares`: the jobs of a pass,
    - `keepsEntries_runShared`: what a run of any jobs keeps,
    - `passWith_rerun`: a second pass.
-/

namespace ClangDb

namespace Database

variable {o : Options} {r : Request} {s t t' made : Store} {job : Job} {jobs : List Job}
  {effects : List Effect} {p : Place} {bytes : List UInt8}

/-! ### The way to a response file -/

/-- Names that lead somewhere with one more behind them lead through folders. -/
theorem folder_of_before {path : Text} {front before after : List Text} {last : Text} {q : Place}
    (hnames : Store.namesOn path = front ++ [last]) (hsplit : Store.namesOn path = before ++ after)
    (hafter : after ≠ []) (hbefore : made.follow (made.origin path) before = .ok p)
    (hfront : made.follow (made.origin path) front = .ok q)
    (hfolder : made.entry? q = some .folder) : made.entry? p = some .folder := by
  obtain ⟨rest, x, rfl⟩ : ∃ rest x, after = rest ++ [x] :=
    ⟨after.dropLast, after.getLast hafter, (List.dropLast_append_getLast hafter).symm⟩
  rw [hnames, ← List.append_assoc] at hsplit
  obtain ⟨hfront', _⟩ := List.append_inj' hsplit rfl
  rw [hfront'] at hfront
  rcases Store.folder_of_follow hfront hbefore with hpassed | ⟨_, rfl⟩
  · exact hpassed
  · exact hfolder

/-- **The way to a response file leads through folders**, if the output folder is there and the
    job has something to write. -/
theorem IsJobOf.folder_of_leadsThrough {file text : Text} {c : Command}
    (hjob : IsJobOf o file c job) (hdir : made.isFolder o.outputDir = true)
    (hrender : job.content.render made = .ok text) (hthrough : made.LeadsThrough job.path p) :
    made.entry? p = some .folder := by
  obtain ⟨before, after, hsplit, hafter, hbefore⟩ := hthrough
  cases hjob with
  | inline =>
    -- the name stands behind the names of the output folder
    obtain ⟨q, hlocate, hfolder⟩ := Store.isFolder_iff.mp hdir
    have hpath : (o.inlineJob file c.tail).path = o.outputDir ++ .char '/' :: flatName file :=
      List.append_assoc _ _ _
    have hnames : Store.namesOn (o.inlineJob file c.tail).path =
        Store.namesOn o.outputDir ++ [flatName file] := by
      rw [hpath, Store.namesOn_append_slash, Store.namesOn_of_not_mem (not_mem_flatName file),
        if_neg (flatName_ne_nil file)]
    have hbegin : o.outputDir <+: (o.inlineJob file c.tail).path := by
      rw [hpath]
      exact List.prefix_append _ _
    have hfollow := Store.follow_of_locate hlocate
    rw [Store.origin_of_begins hbegin (Store.follow_of_walk hlocate).1] at hfollow
    exact folder_of_before hnames hsplit hafter hbefore hfollow hfolder
  | @copy _ _ spelled _ _ _ =>
    -- the copy stands beside the response file, which was found
    have hrender' : ResponseFile.convert made o.dialect o.engineDir (Path.normalize spelled) =
        .ok text := hrender
    unfold ResponseFile.convert at hrender'
    split at hrender'
    · next found program hfind =>
      obtain ⟨q, hlocate, hentry, hneeds⟩ := Store.find_eq_ok_iff.mp hfind
      have hfile : Store.needsFolder (Path.normalize spelled) = false := by
        rw [Bool.eq_false_iff]
        intro hn
        cases hneeds hn
      have hne := (Store.follow_of_walk hlocate).1
      have hpath : (o.copyJob file (Path.normalize spelled)).path =
          Path.normalize spelled ++ copySuffix o.dialect (Path.normalize spelled) :=
        copyName_eq _ _
      obtain ⟨front, last, hsource, hnames⟩ := Store.namesOn_append_file hne hfile
        (copySuffix_shape o.dialect (Path.normalize spelled)).1
      rw [← hpath] at hnames
      have hbegin : Path.normalize spelled <+: (o.copyJob file (Path.normalize spelled)).path := by
        rw [hpath]
        exact List.prefix_append _ _
      have hfollow := Store.follow_of_locate hlocate
      rw [Store.origin_of_begins hbegin hne, hsource] at hfollow
      obtain ⟨above, habove, henter⟩ := Store.follow_append_singleton hfollow
      exact folder_of_before hnames hsplit hafter hbefore habove (Store.folder_of_enter henter)
    · cases hrender'

/-! ### The jobs of a pass -/

/-- Holds of jobs that write neither the input of a pass nor a response file that one of them
    is made from. -/
structure Spares (made : Store) (input : Text) (jobs : List Job) : Prop where
  input : ∀ p, made.locate input = .ok p → ¬ WrittenBy made jobs p
  sources : ∀ job ∈ jobs, ∀ p, job.IsFrom made p → ¬ WrittenBy made jobs p

/-- **The jobs of a pass are clear of the places that they write**, if they spare the response
    files. -/
theorem clear_of_spares {input : Text} (hjobs : ∀ job ∈ jobs, ∃ c, IsJobOf o job.sourceFile c job)
    (hdir : made.isFolder o.outputDir = true) (hspares : Spares made input jobs) :
    ∀ job ∈ jobs, job.Clear made (WrittenBy made jobs) := by
  intro job hmem
  obtain ⟨c, hjob⟩ := hjobs job hmem
  refine ⟨hspares.sources job hmem, ?_⟩
  intro text hrender p hthrough hwritten
  exact hwritten.not_folder (hjob.folder_of_leadsThrough hdir hrender hthrough)

/-- Jobs spare what their paths do not lead to. -/
theorem spares_of_locate {input : Text}
    (hinput : ∀ k ∈ jobs, made.locate k.path ≠ made.locate input)
    (hsources : ∀ j ∈ jobs, ∀ source ∈ j.content.source?, ∀ k ∈ jobs,
      made.locate k.path ≠ made.locate source) : Spares made input jobs := by
  constructor
  · intro p hlocate hwritten
    obtain ⟨k, hk, written, hdoes⟩ := hwritten
    exact hinput k hk (hdoes.place.2.1.trans hlocate.symm)
  · intro j hj p hfrom hwritten
    obtain ⟨source, engineDir, dialect, hcontent, hlocate⟩ := hfrom
    obtain ⟨k, hk, written, hdoes⟩ := hwritten
    have hsource : source ∈ j.content.source? := by
      rw [hcontent]
      rfl
    exact hsources j hj source hsource k hk (hdoes.place.2.1.trans hlocate.symm)

/-! ### What a run keeps -/

theorem Job.Does.keepsEntries {effect : Effect} (h : job.Does s effect) :
    Store.KeepsEntries s (effect.apply s) := by
  cases effect with
  | failed e => exact Store.KeepsEntries.refl s
  | written p bytes => exact Store.keepsEntries_put h.place.2.2

theorem Runs.keepsEntries (h : Runs s jobs effects t) : Store.KeepsEntries s t :=
  h.keeps Store.KeepsEntries.refl Store.KeepsEntries.trans fun _ _ _ _ hdoes => hdoes.keepsEntries

/-- **A run of any jobs keeps all folders, adds none, and removes no file.** -/
theorem keepsEntries_runShared (workers : Int) (order : List Nat) (s : Store) (jobs : List Job) :
    Store.KeepsEntries s (runShared workers order s jobs).1 :=
  runShared_keeps Store.KeepsEntries.refl Store.KeepsEntries.trans workers order s
    fun _ _ _ _ hdoes => hdoes.keepsEntries

/-! ### A second run -/

/-- Jobs have their effects on a store in one way only. -/
theorem effects_unique {effects' : List Effect}
    (h : List.Forall₂ (fun job effect => Job.Does s job effect) jobs effects)
    (h' : List.Forall₂ (fun job effect => Job.Does s job effect) jobs effects') :
    effects = effects' := by
  induction h generalizing effects' with
  | nil =>
    cases h'
    rfl
  | cons hdoes _ ih =>
    cases h' with
    | cons hdoes' hmore => rw [hdoes.unique hdoes', ih hmore]

/-- What was written in a run is there after the same effects a second time. -/
theorem Runs.sameFiles (h : Runs s jobs effects t) (h' : Runs t jobs effects t') :
    SameFiles t t' := by
  refine ⟨h'.keepsEntries.keeps.workingDir, ?_⟩
  intro p
  rw [h'.entry?_eq p, h.entry?_eq p]
  cases lastAt p effects <;> rfl

/-- **One worker writes the same a second time.** -/
theorem sameFiles_of_serial (hclear : ∀ job ∈ jobs, job.Clear s (WrittenBy s jobs))
    (hover : Store.Overlays (WrittenBy s jobs) s s) {workers workers' : Int}
    {order order' : List Nat} {tally tally' : Tally} (hle : workers ≤ 1) (hle' : workers' ≤ 1)
    (h : runShared workers order s jobs = (t, some (.ok tally)))
    (h' : runShared workers' order' t jobs = (t', some (.ok tally'))) : SameFiles t t' := by
  obtain ⟨effects, hruns, _⟩ := runs_of_runShared (by omega) h
  obtain ⟨effects', hruns', _⟩ := runs_of_runShared (by omega) h'
  -- both times the effects are those that the jobs have at first
  obtain ⟨hdoes, hover'⟩ := hruns.overlay (List.Subset.refl jobs) hclear hover
  obtain ⟨hdoes', _⟩ := hruns'.overlay (List.Subset.refl jobs) hclear hover'
  obtain rfl := effects_unique hdoes hdoes'
  exact hruns.sameFiles hruns'

/-! ### A second pass -/

/-- A pass that cannot make its output folder is refused. -/
theorem start_of_unmade {e : AccessError}
    (h : s.makeFolders r.options.outputDir = (s, .error e)) : ∃ e', r.start s = (s, .error e') := by
  unfold Request.start
  cases r.engineDir.trim.isEmpty with
  | true => exact ⟨_, rfl⟩
  | false =>
    rw [if_neg Bool.false_ne_true]
    cases s.read r.input with
    | error cause => cases cause <;> exact ⟨_, rfl⟩
    | ok bytes =>
      simp only [h]
      cases e <;> exact ⟨_, rfl⟩

/-- A pass that has an output folder, and whose input was not written, starts again with the same
    lines and makes nothing. -/
theorem start_again {lines : List Text} {places : Place → Prop}
    (hstart : r.start s = (made, .ok lines)) (hover : Store.Overlays places made t)
    (hinput : ∀ p, made.locate r.input = .ok p → ¬ places p)
    (hdir : t.makeFolders r.options.outputDir = (t, .ok ())) : r.start t = (t, .ok lines) := by
  obtain ⟨hengine, bytes, hread, hmade, rfl⟩ := start_eq_ok_iff.mp hstart
  have hadds := Store.addsFolders_makeFolders s r.options.outputDir
  rw [hmade] at hadds
  obtain ⟨program, hfind⟩ := Store.read_eq_ok_iff.mp (hadds.read hread)
  have hread' : t.read r.input = .ok bytes :=
    Store.read_eq_ok_iff.mpr ⟨program, (hover.find_iff hinput).mpr hfind⟩
  exact start_eq_ok_iff.mpr ⟨hengine, bytes, hread', hdir, rfl⟩

/-- **A pass that runs again.**  If a pass has a report and its jobs spare the input and the
    response files that they are made from, then the output folder is there after it was made,
    and a second pass over the store that it left has the same report and leaves the same files,
    with one worker both times, or if the jobs that write at one place write the same there; or
    the output folder is not there after all, and a second pass is refused. -/
theorem passWith_rerun {workers : Int} {order : List Nat} {first : Pass} {report : Report}
    (hread : s.read r.input = .ok bytes)
    (hmade : s.makeFolders r.options.outputDir = (made, .ok ()))
    (hpass : passWith workers order s r = some first) (hreport : first.outcome = .ok report)
    (hspares : Spares made r.input (r.scan bytes).jobs) :
    (made.isFolder r.options.outputDir = true → ∀ workers' order',
      (∀ i, i < (r.scan bytes).jobs.length → i ∈ order') →
      ∃ second, passWith workers' order' first.store r = some second ∧
        second.outcome = .ok report ∧
        (Compatible made (r.scan bytes).jobs ∨ workers ≤ 1 ∧ workers' ≤ 1 →
          SameFiles first.store second.store)) ∧
    (made.isFolder r.options.outputDir = false → ∀ workers' order', ∃ e,
      passWith workers' order' first.store r = some ⟨first.store, [], .error e⟩) := by
  obtain ⟨made', lines, tally, hstart, hrun, rfl⟩ := passWith_spec hpass hreport
  obtain ⟨_, bytes', hread', hmade', rfl⟩ := start_eq_ok_iff.mp hstart
  obtain rfl := Except.ok.inj (hread.symm.trans hread')
  obtain rfl := (Prod.mk.inj (hmade.symm.trans hmade')).1
  have hrun : runShared workers order made (r.scan bytes).jobs =
      (first.store, some (.ok tally)) := hrun
  have hkeeps := keepsEntries_runShared workers order made (r.scan bytes).jobs
  rw [hrun] at hkeeps
  obtain ⟨hagain, hrefused⟩ :=
    Store.makeFolders_again (Store.bare_withoutTrailing _) hmade hkeeps
  constructor
  · intro hdir workers' order' hall
    have hclear : ∀ job ∈ (r.scan bytes).jobs,
        job.Clear made (WrittenBy made (r.scan bytes).jobs) :=
      clear_of_spares (fun job hmem => exists_isJobOf_of_mem hmem) hdir hspares
    have hover : Store.Overlays (WrittenBy made (r.scan bytes).jobs) made made :=
      Store.Overlays.refl fun p hp => hp.not_folder
    obtain ⟨hcollect, hover', hserves⟩ := runShared_spec hclear hover hrun
    -- the second pass reads the same input and schedules the same jobs
    have hstart' : r.start first.store =
        (first.store, .ok (Text.rawLines (Utf8.decodeEscaping bytes))) :=
      start_again hstart hover' hspares.input (hagain hdir)
    have hresult := runShared_eq_collect hclear hover' hall workers'
    rw [hcollect] at hresult
    cases hrun' : runShared workers' order' first.store (r.scan bytes).jobs with
    | mk last result =>
      rw [hrun'] at hresult
      obtain rfl : result = some (.ok tally) := hresult
      refine ⟨r.options.conclude _ last (.ok tally), ?_, rfl, ?_⟩
      · have hscan : runShared workers' order' first.store (scanLines r.options .initial
            (Text.rawLines (Utf8.decodeEscaping bytes))).jobs = (last, some (.ok tally)) := hrun'
        unfold passWith
        simp only [hstart', hscan]
      · intro hwrites
        rcases hwrites with hcompatible | ⟨hle, hle'⟩
        · have hserves' := (runShared_spec hclear hover' hrun').2.2 hcompatible
          exact (hserves hcompatible).sameFiles hserves'
        · exact sameFiles_of_serial hclear hover hle hle' hrun hrun'
  · intro hdir workers' order'
    obtain ⟨e, hunmade⟩ := hrefused hdir
    obtain ⟨e', hstart'⟩ := start_of_unmade hunmade
    exact ⟨e', passWith_of_start hstart' workers' order'⟩

/-- A database without entries. -/
def emptyLines : List Text := ["[]\n"]

/-- A store with a file that is in the way of an output folder. -/
def dotStore : Store := storeOf emptyLines [(["f"], .file (Utf8.bytesOf "x") none)]

/-- A pass whose output folder ends in a dot behind the file, and goes through a folder that is
    missing. -/
def dotRequest : Request := { inputRequest with outputDir := "a/../f/." }

/-- The pass over the database with two sources of one flat name has the same report a second
    time and leaves the same files.  The pass with the dot has a report, and is refused the
    second time. -/
theorem passWith_rerun_sample :
    (∃ first report second, passWith 1 [] accountStore inputRequest = some first ∧
      first.outcome = .ok report ∧ (report.filesWritten, report.errors.length) = (3, 1) ∧
      passWith 1 [0, 1, 2, 3] first.store inputRequest = some second ∧
      second.outcome = .ok report ∧ SameFiles first.store second.store) ∧
    ∃ first report e, passWith 1 [] dotStore dotRequest = some first ∧
      first.outcome = .ok report ∧ report.text = emptyLines.flatten ∧
      passWith 1 [] first.store dotRequest = some ⟨first.store, [], .error e⟩ := by
  constructor
  · have hcounts : (passWith 1 [] accountStore inputRequest).bind (fun p =>
        p.outcome.toOption.map fun report => (report.filesWritten, report.errors.length)) =
          some (3, 1) := by decide +kernel
    obtain ⟨first, hpass, hcounts⟩ := Option.bind_eq_some_iff.mp hcounts
    obtain ⟨report, hreport, hcounts⟩ := Option.map_eq_some_iff.mp hcounts
    have hok : (accountStore.makeFolders inputRequest.options.outputDir).2 = .ok () := by
      decide +kernel
    have hdir : (accountStore.makeFolders inputRequest.options.outputDir).1.isFolder
        inputRequest.options.outputDir = true := by decide +kernel
    have hspares : Spares (accountStore.makeFolders inputRequest.options.outputDir).1
        inputRequest.input (inputRequest.scan (inputOf accountLines)).jobs := by
      apply spares_of_locate
      · decide +kernel
      · decide +kernel
    have hall : ∀ i, i < (inputRequest.scan (inputOf accountLines)).jobs.length →
        i ∈ [0, 1, 2, 3] := by decide +kernel
    obtain ⟨hagain, _⟩ := passWith_rerun (read_storeOf accountLines []) (Prod.ext rfl hok) hpass
      (eq_ok_of_toOption hreport) hspares
    obtain ⟨second, hsecond, hsame, hfiles⟩ := hagain hdir 1 [0, 1, 2, 3] hall
    exact ⟨first, report, second, hpass, eq_ok_of_toOption hreport, hcounts, hsecond, hsame,
      hfiles (.inr ⟨Int.le_refl 1, Int.le_refl 1⟩)⟩
  · have htext : (passWith 1 [] dotStore dotRequest).bind (fun p =>
        p.outcome.toOption.map (·.text)) = some emptyLines.flatten := by decide +kernel
    obtain ⟨first, hpass, htext⟩ := Option.bind_eq_some_iff.mp htext
    obtain ⟨report, hreport, htext⟩ := Option.map_eq_some_iff.mp htext
    have hok : (dotStore.makeFolders dotRequest.options.outputDir).2 = .ok () := by
      decide +kernel
    have hdir : (dotStore.makeFolders dotRequest.options.outputDir).1.isFolder
        dotRequest.options.outputDir = false := by decide +kernel
    have hspares : Spares (dotStore.makeFolders dotRequest.options.outputDir).1
        dotRequest.input (dotRequest.scan (inputOf emptyLines)).jobs := by
      apply spares_of_locate
      · decide +kernel
      · decide +kernel
    have hread : dotStore.read dotRequest.input = .ok (inputOf emptyLines) := rfl
    obtain ⟨_, hrefused⟩ := passWith_rerun hread (Prod.ext rfl hok) hpass
      (eq_ok_of_toOption hreport) hspares
    obtain ⟨e, hsecond⟩ := hrefused hdir 1 []
    exact ⟨first, report, e, hpass, eq_ok_of_toOption hreport, htext, hsecond⟩

end Database

end ClangDb
