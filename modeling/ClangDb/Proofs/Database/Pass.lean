import ClangDb.Proofs.Database.Jobs
import ClangDb.Proofs.FileStore.Folders
import ClangDb.Proofs.World

/-! # What a pass that comes to an end has done

    Such a pass has read its input, made its output folder, scanned the lines of
    the input and run the jobs.  Its text is what the scan gave, and the text is
    saved as the bytes that it encodes to.

    Key theorems:
    - `pass_spec`: the steps of a pass with a report,
    - `runs_of_pass`: the steps of any pass that has read its input,
    - `read_save`: the bytes of a saved text.
-/

namespace ClangDb

namespace Database

/-- The scan that a pass makes of bytes. -/
def Request.scan (r : Request) (bytes : List UInt8) : Scan :=
  scanLines r.options .initial (Text.rawLines (Utf8.decodeEscaping bytes))

/-- A pass that can start scans the lines of its input and runs the jobs. -/
theorem pass_eq_passLines {s made : Store} {r : Request} {bytes : List UInt8}
    (hengine : r.engineDir.trim.isEmpty = false) (hread : s.read r.input = .ok bytes)
    (hfolders : s.makeFolders r.options.outputDir = (made, .ok ())) :
    pass s r = passLines made r.options (Text.rawLines (Utf8.decodeEscaping bytes)) := by
  unfold pass
  rw [hengine]
  simp only [Bool.false_eq_true, if_false, hread, hfolders]

/-- A pass that has a report could start. -/
theorem starts_of_pass {s : Store} {r : Request} {report : Report}
    (h : (pass s r).outcome = .ok report) :
    r.engineDir.trim.isEmpty = false ∧ ∃ bytes made, s.read r.input = .ok bytes ∧
      s.makeFolders r.options.outputDir = (made, .ok ()) := by
  -- every other way out is a refusal
  unfold pass at h
  split at h
  · cases h
  · next hengine =>
    refine ⟨by simpa using hengine, ?_⟩
    simp only at h
    split at h
    · cases h
    · cases h
    · next bytes hread =>
      split at h
      · cases h
      · cases h
      · next made hfolders => exact ⟨bytes, made, hread, hfolders⟩

/-- What a pass has done when it has a report. -/
theorem pass_spec {s : Store} {r : Request} {report : Report}
    (h : (pass s r).outcome = .ok report) :
    ∃ bytes made effects, s.read r.input = .ok bytes ∧
      s.makeFolders r.options.outputDir = (made, .ok ()) ∧
      Runs made (r.scan bytes).jobs effects (pass s r).store ∧
      report = ⟨(r.scan bytes).lines.flatten, (counted effects).written,
        (counted effects).errors, countCommands (Text.rawLines (Utf8.decodeEscaping bytes))⟩ := by
  obtain ⟨hengine, bytes, made, hread, hfolders⟩ := starts_of_pass h
  rw [pass_eq_passLines hengine hread hfolders] at h ⊢
  rcases runJobs_spec made (r.scan bytes).jobs with ⟨s', effects, hruns, heq⟩ |
    ⟨_, _, _, _, s', e, _, _, _, heq⟩
  · unfold Request.scan at heq
    simp only [passLines, heq] at h ⊢
    exact ⟨bytes, made, effects, hread, hfolders, hruns, (Except.ok.inj h).symm⟩
  · unfold Request.scan at heq
    simp only [passLines, heq] at h
    cases h

/-- **Whatever a pass comes to, it has made folders and then run jobs**, the first of those that
    its input schedules. -/
theorem runs_of_pass {s : Store} {r : Request} {bytes : List UInt8}
    (hread : s.read r.input = .ok bytes) :
    ∃ made before effects, Store.AddsFolders s made ∧ before <+: (r.scan bytes).jobs ∧
      Runs made before effects (pass s r).store := by
  cases hengine : r.engineDir.trim.isEmpty with
  | true =>
    have hpass : pass s r = ⟨s, [], .error .noEngineDir⟩ := by rw [pass, if_pos hengine]
    rw [hpass]
    exact ⟨s, [], [], Store.AddsFolders.refl s, List.nil_prefix, .nil s⟩
  | false =>
    cases hfolders : s.makeFolders r.options.outputDir with
    | mk made result =>
      have hadds := Store.addsFolders_makeFolders s r.options.outputDir
      rw [hfolders] at hadds
      cases result with
      | error e =>
        -- nothing runs where the output folder cannot be made
        have hstore : (pass s r).store = made := by
          simp only [pass, hengine, Bool.false_eq_true, if_false, hread, hfolders]
          cases e <;> rfl
        rw [hstore]
        exact ⟨made, [], [], hadds, List.nil_prefix, .nil made⟩
      | ok _ =>
        rw [pass_eq_passLines hengine hread hfolders]
        rcases runJobs_spec made (r.scan bytes).jobs with ⟨s', effects, hruns, heq⟩ |
          ⟨before, job, after, effects, s', e, hjobs, hruns, _, heq⟩
        · unfold Request.scan at heq
          simp only [passLines, heq]
          exact ⟨made, _, effects, hadds, List.prefix_refl _, hruns⟩
        · have hprefix : before <+: (r.scan bytes).jobs := by
            rw [hjobs]
            exact List.prefix_append _ _
          unfold Request.scan at heq
          simp only [passLines, heq]
          exact ⟨made, before, effects, hadds, hprefix, hruns⟩

/-- The output folder of a pass has bytes, since it has been made. -/
theorem encodable_outputDir {s : Store} {r : Request} {report : Report}
    (h : (pass s r).outcome = .ok report) : Utf8.Encodable r.options.outputDir := by
  obtain ⟨_, _, _, _, hfolders, _, _⟩ := pass_spec h
  have husable : Store.Usable r.options.outputDir :=
    Store.usable_of_makeFolders (s := s) (by rw [hfolders])
  exact (Store.usable_iff.mp husable).2

/-- A text that was saved is read back as its bytes. -/
theorem read_save {s s' : Store} {path text : Text} {bytes : List UInt8}
    (hbytes : Utf8.encode text = .ok bytes) (h : save s path text = .ok s') :
    s'.read path = .ok bytes := by
  rw [save, hbytes] at h
  exact Store.read_write h

/-! ### Samples -/

/-- The bytes of a database with some lines. -/
def inputOf (lines : List Text) : List UInt8 := Utf8.bytesOf lines.flatten

/-- A store that holds a database with some lines, and other files. -/
def storeOf (lines : List Text) (others : List (Place × Entry)) : Store :=
  ⟨[], (["in"], .file (inputOf lines) none) :: others⟩

/-- A pass over the database in such a store. -/
def inputRequest : Request := ⟨"in", "out", "/engine", false, .clang, false⟩

theorem read_storeOf (lines : List Text) (others : List (Place × Entry)) :
    (storeOf lines others).read inputRequest.input = .ok (inputOf lines) := rfl

end Database

end ClangDb
