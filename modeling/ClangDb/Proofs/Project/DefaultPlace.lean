import ClangDb.Proofs.Database.FlatNames
import ClangDb.Proofs.Database.Preservation
import ClangDb.Proofs.Database.Rerun
import ClangDb.Proofs.Project.Database

/-! # Where a database is written by default

    The output folder is spelled in two ways.  The pass normalizes its path, makes the
    folder and puts response files into it.  The database goes to a file in the folder
    whose path was given, read and written again.  Without a backslash both are one
    folder, so the database lands beside its response files.  With a backslash they
    are two: the pass makes a folder for each part between the backslashes, and the
    database is looked for in a folder with the backslash in its name, which the pass
    does not make.

    Key theorems:
    - `databaseFolder_iff`: the two folders, without a backslash,
    - `not_databaseFolder`: and with one,
    - `save_default`: what becomes of the database,
    - `process_default`: all of it.
-/

namespace ClangDb

namespace Project

open Database (passBy)

variable {r : Database.Request} {s t : Store} {folder : Place} {workers : Int} {turns : List Nat}
  {w : World}

/-! ### The two folders -/

/-- Holds of the folder in which a pass puts its response files. -/
def ResponseFolder (t : Store) (r : Database.Request) (folder : Place) : Prop :=
  t.entry? folder = some .folder ∧ t.LeadsTo r.options.outputDir folder

/-- Holds of the folder in which the database is put by default. -/
def DatabaseFolder (t : Store) (r : Database.Request) (folder : Place) : Prop :=
  t.entry? folder = some .folder ∧ t.LeadsTo (Path.ofText r.outputDir).toText folder

/-- The file to which a database is written by default. -/
def defaultOutput (r : Database.Request) : Text :=
  ((Path.ofText r.outputDir).join databaseName).toText

/-- **Without a backslash both are one folder.** -/
theorem databaseFolder_iff (hdir : r.outputDir ≠ []) (hslash : .char '\\' ∉ r.outputDir) :
    DatabaseFolder t r folder ↔ ResponseFolder t r folder := by
  have hone : t.LeadsTo r.options.outputDir folder ↔ t.LeadsTo r.outputDir folder :=
    (Store.leadsTo_withoutTrailing (Path.normalize_ne_nil hdir)).trans
      (Store.leadsTo_normalize hslash)
  unfold DatabaseFolder ResponseFolder
  rw [hone]
  exact and_congr_right fun hfolder => Store.leadsTo_ofText hfolder

theorem backslash_not_mem (hdir : r.outputDir ≠ []) : .char '\\' ∉ r.options.outputDir := by
  intro hmem
  have hbegins := Path.withoutTrailing_begins (Path.normalize_ne_nil hdir)
  exact (Path.isNormal_normalize r.outputDir).noBackslash (hbegins.subset hmem)

/-- **With a backslash there is no folder for the database**, if none had a backslash in its name
    before the output folder was made. -/
theorem not_databaseFolder {made : Store} {result : Except AccessError Unit}
    (hdir : r.outputDir ≠ []) (hslash : .char '\\' ∈ r.outputDir) (hfree : s.BackslashFree)
    (hmade : s.makeFolders r.options.outputDir = (made, result))
    (hkeeps : Store.KeepsEntries made t) : ¬ DatabaseFolder t r folder := by
  rintro ⟨hfolder, hleads⟩
  have hfree' := hfree.makeFolders (backslash_not_mem hdir) hmade
  have hthere : t.BackslashFree := by
    refine ⟨?_, fun p hp => hfree'.folders p (hkeeps.back.folder p hp)⟩
    rw [hkeeps.keeps.workingDir]
    exact hfree'.workingDir
  exact Store.not_leadsTo_of_backslash hthere hslash hfolder
    ((Store.leadsTo_ofText hfolder).mp hleads)

/-! ### Writing the database -/

/-- What becomes of a database that is written to its default place: whether it is written, and
    the files that are left. -/
inductive Lands (t : Store) (r : Database.Request) (text : Text) : Bool → Store → Prop where
  | written {folder : Place} : DatabaseFolder t r folder →
      (Utf8.bytesOf (defaultOutput r)).length < Store.pathLimit →
      t.entry? (folder ++ [databaseName]) ≠ some .folder →
      Lands t r text true (t.put (folder ++ [databaseName]) (.file (Utf8.bytesOf text) none))
  /-- There is no folder for it; or its path is too long, or a folder is in its place. -/
  | refused : (∀ folder, DatabaseFolder t r folder →
        Store.pathLimit ≤ (Utf8.bytesOf (defaultOutput r)).length ∨
          t.entry? (folder ++ [databaseName]) = some .folder) →
      Lands t r text false t

theorem usable_defaultOutput (h : Store.Usable r.outputDir) : Store.Usable (defaultOutput r) := by
  have hproper := Path.isProper_ofText r.outputDir
  have hnames := (Store.usable_toText hproper).mp (Store.usable_ofText.mpr h)
  apply (Store.usable_toText (hproper.join databaseName)).mpr
  rw [leadsDown_databaseName.join_eq]
  intro name hname
  rcases List.mem_append.mp hname with hname | hname
  · exact hnames name hname
  · obtain rfl := List.mem_singleton.mp hname
    unfold Store.Usable
    decide

/-- **What stands at the default place** stands in the folder for the database. -/
theorem locate_defaultOutput {p : Place} (h : Store.Usable r.outputDir) :
    t.locate (defaultOutput r) = .ok p ↔
      (Utf8.bytesOf (defaultOutput r)).length < Store.pathLimit ∧
        ∃ folder, DatabaseFolder t r folder ∧ p = folder ++ [databaseName] := by
  have husable := usable_defaultOutput h
  have hne : defaultOutput r ≠ [] := by
    obtain ⟨front, hfront⟩ := leadsDown_databaseName.exists_toText (Path.ofText r.outputDir)
    unfold defaultOutput
    rw [hfront]
    exact List.append_ne_nil_of_right_ne_nil _ leadsDown_databaseName.ne_nil
  have hleads := leadsDown_databaseName.join (s := t) (r := p) (Path.isProper_ofText r.outputDir)
  rw [Store.locate_eq_ok_iff]
  unfold defaultOutput at hne husable ⊢
  rw [hleads]
  unfold DatabaseFolder
  simp only [ne_eq, hne, not_false_eq_true, husable, true_and, and_assoc]

/-- **A database is written to its default place, or it is refused** with a file error. -/
theorem save_default {text : Text} (husable : Store.Usable r.outputDir)
    (htext : Utf8.Encodable text) :
    (∃ t', Database.save t (defaultOutput r) text = .ok t' ∧ Lands t r text true t') ∨
      ∃ e, Database.save t (defaultOutput r) text = .error (.file e) ∧ Lands t r text false t := by
  have hneeds : Store.needsFolder (defaultOutput r) = false :=
    leadsDown_databaseName.needsFolder (Path.ofText r.outputDir)
  have hsave : Database.save t (defaultOutput r) text =
      t.write (defaultOutput r) (Utf8.bytesOf text) := by
    unfold Database.save
    rw [Utf8.encode_eq_ok_iff.mpr ⟨htext, rfl⟩]
  have hanswer : Store.IsAnswer (t.writable (defaultOutput r)) :=
    Store.isAnswer_writable_iff.mpr (usable_defaultOutput husable)
  rw [hsave, Store.write]
  cases hwritable : t.writable (defaultOutput r) with
  | ok p =>
    obtain ⟨_, hlocate, hfree⟩ := Store.writable_eq_ok_iff.mp hwritable
    obtain ⟨hshort, folder, hfolder, rfl⟩ := (locate_defaultOutput husable).mp hlocate
    exact .inl ⟨_, rfl, .written hfolder hshort hfree⟩
  | error a =>
    rw [hwritable] at hanswer
    cases a with
    | file e =>
      refine .inr ⟨e, rfl, .refused ?_⟩
      intro folder hfolder
      -- a short path to a place without a folder could be written
      by_contra hnot
      rw [not_or, not_le] at hnot
      obtain ⟨hshort, hfree⟩ := hnot
      have hlocate := (locate_defaultOutput husable).mpr ⟨hshort, folder, hfolder, rfl⟩
      rw [Store.writable_eq_ok_iff.mpr ⟨hneeds, hlocate, hfree⟩] at hwritable
      cases hwritable
    | _ => cases hanswer

/-! ### A conversion without an output -/

/-- After a pass with a report the answer says whether the database was written. -/
theorem run_process_default {report : Database.Report}
    (hpass : (passBy workers turns w.store r).outcome = .ok report)
    (husable : Store.Usable r.outputDir) (htext : Utf8.Encodable report.text) :
    ∃ answer w', (process r none workers turns).run w = (.ok answer, w') ∧
      Lands (passBy workers turns w.store r).store r report.text answer.success w'.store := by
  have hnone : process r none workers turns =
      process r (some (defaultOutput r)) workers turns := rfl
  obtain ⟨outcome, w', hprocess, hends⟩ := run_process_of_report (defaultOutput r) hpass
  rw [hnone, hprocess]
  rcases save_default (t := (passBy workers turns w.store r).store) husable htext with
    ⟨t', hsave, hland⟩ | ⟨e, hsave, hland⟩
  · rw [hsave] at hends
    rcases hends with ⟨answer, u, rfl, hsuccess, rfl, hu⟩ | ⟨_, _, _, _, _, h⟩ | ⟨_, _, _, h⟩
    · obtain rfl := Except.ok.inj hu
      exact ⟨answer, w', rfl, by rwa [hsuccess]⟩
    · cases h
    · cases h
  · rw [hsave] at hends
    rcases hends with ⟨_, _, _, _, _, h⟩ | ⟨answer, _, rfl, hsuccess, hstore, _⟩ | ⟨a, _, hnot, h⟩
    · cases h
    · exact ⟨answer, w', rfl, by rwa [hsuccess, hstore]⟩
    · exact absurd (Except.error.inj h).symm (hnot e)

/-- **Where a database lands by default.**  It is written into the folder for it, unless its path
    is too long or a folder is in its place.  Without a backslash in the output folder's path that
    is the folder of the response files, which is there unless its last name is a dot.  With a
    backslash there is no such folder, if no folder had a backslash in its name. -/
theorem process_default {report : Database.Report} (hdir : r.outputDir ≠ [])
    (hpass : (passBy workers turns w.store r).outcome = .ok report) :
    ∃ t answer w', t = (passBy workers turns w.store r).store ∧
      (process r none workers turns).run w = (.ok answer, w') ∧
      Lands t r report.text answer.success w'.store ∧
      (.char '\\' ∉ r.outputDir → ∀ folder,
        DatabaseFolder t r folder ↔ ResponseFolder t r folder) ∧
      ((Store.namesOn r.options.outputDir).getLast? ≠ some ("." : Text) →
        ∃ folder, ResponseFolder t r folder) ∧
      (∀ file tail p, t.locate (r.options.inlineJob file tail).path = .ok p →
        ∃ folder, ResponseFolder t r folder ∧ p = folder ++ [Database.flatName file]) ∧
      (.char '\\' ∈ r.outputDir → w.store.BackslashFree →
        ∀ folder, ¬ DatabaseFolder t r folder) := by
  obtain ⟨made, bytes, result, hmade, hrun, htext⟩ := Database.passBy_spec hpass
  have hkeeps := Database.keepsEntries_runShared workers
    (turns ++ List.range (r.jobs w.store).length) made (r.scan bytes).jobs
  rw [hrun] at hkeeps
  have husable : Store.Usable r.options.outputDir := Store.usable_of_makeFolders (by rw [hmade])
  have hencodable : Utf8.Encodable report.text := by
    rw [htext]
    exact Database.encodable_scanLines (Store.usable_iff.mp husable).2
      (Utf8.encodable_of_mem_rawLines (Utf8.encodable_decodeEscaping bytes))
  obtain ⟨answer, w', hprocess, hlands⟩ :=
    run_process_default hpass (Store.usable_of_normalize husable) hencodable
  refine ⟨_, answer, w', rfl, hprocess, hlands, ?_, ?_, ?_, ?_⟩
  · exact fun hslash folder => databaseFolder_iff hdir hslash
  · intro hdot
    have hthere := Store.isFolder_of_makeFolders hmade hdot
    rw [← hkeeps.isFolder_eq] at hthere
    obtain ⟨folder, hlocate, hfolder⟩ := Store.isFolder_iff.mp hthere
    exact ⟨folder, hfolder, Store.follow_of_locate hlocate⟩
  · intro file tail p hlocate
    obtain ⟨folder, habove, hfolder, rfl⟩ :=
      Database.place_of_inlineJob (Path.withoutTrailing_ne_nil _) hlocate
    exact ⟨folder, ⟨hfolder, Store.follow_of_locate habove⟩, rfl⟩
  · exact fun hslash hfree folder => not_databaseFolder hdir hslash hfree hmade hkeeps

/-- A conversion into a folder that is spelled with a backslash. -/
def backslashRequest : Database.Request :=
  ⟨"db.json", "out\\rsp", "/engine", false, .clang, false⟩

def backslashInput : World where
  store := ⟨[], [(["db.json"], .file (Utf8.bytesOf "[]\n") none)]⟩
  records := []
  calls := []

/-- The folder of the response files is made, and the database is refused for want of one. -/
theorem process_default_backslash :
    ∃ answer w', (process backslashRequest none 1 []).run backslashInput = (.ok answer, w') ∧
      answer.success = false ∧ (∃ folder, ResponseFolder w'.store backslashRequest folder) ∧
      ∀ folder, ¬ DatabaseFolder w'.store backslashRequest folder := by
  have hreport : (passBy 1 [] backslashInput.store backslashRequest).outcome.toOption =
      some ⟨"[]\n", 0, [], 0⟩ := by
    -- one worker runs the jobs as the pass does
    rw [Database.passBy_of_le_one (Int.le_refl 1)]
    decide +kernel
  have hfree : Store.BackslashFree backslashInput.store :=
    Store.backslashFree_of_entries (by decide) (by decide)
  obtain ⟨t, answer, w', rfl, hrun, hlands, _, hthere, _, hnone⟩ :=
    process_default (by decide) (eq_ok_of_toOption hreport)
  have hnone := hnone (by decide) hfree
  have hthere := hthere (by decide)
  refine ⟨answer, w', hrun, ?_⟩
  generalize answer.success = success at hlands ⊢
  generalize w'.store = after at hlands ⊢
  cases hlands with
  | written hfolder _ _ => exact absurd hfolder (hnone _)
  | refused _ => exact ⟨rfl, hthere, hnone⟩

end Project

end ClangDb
