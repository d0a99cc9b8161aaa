import ClangDb.Project.Database
import ClangDb.Proofs.FileStore.Spelling
import ClangDb.Proofs.World

/-! # What converting a database does to the files

    The result of a conversion is written only if the pass has a report.  A pass
    that is given up leaves the files as the pass left them, and so does a result
    that cannot be written.

    Key theorems:
    - `run_runPass`: the pass as an operation,
    - `run_process_of_report`: what follows a pass with a report,
    - `process_cases`: how a conversion ends.
-/

namespace ClangDb

namespace Project

open Database (passBy)

variable {r : Database.Request} {output : Text} {workers : Int} {turns : List Nat} {w w' : World}

theorem leadsDown_databaseName : Store.LeadsDown databaseName where
  long := by decide
  noSlash := by decide
  encodable := Utf8.encodable_ofString "compile_commands.json"
  short := by decide

/-- What a conversion does on a store: whether it succeeds, and the store that it leaves. -/
inductive Converts (r : Database.Request) (output : Text) (workers : Int) (turns : List Nat)
    (s : Store) : Bool → Store → Prop where
  | givenUp {e : Database.PassError} : (passBy workers turns s r).outcome = .error e →
      Converts r output workers turns s false (passBy workers turns s r).store
  | unwritten {report : Database.Report} {e : FileError} :
      (passBy workers turns s r).outcome = .ok report →
      Database.save (passBy workers turns s r).store output report.text = .error (.file e) →
      Converts r output workers turns s false (passBy workers turns s r).store
  | written {report : Database.Report} {t : Store} :
      (passBy workers turns s r).outcome = .ok report →
      Database.save (passBy workers turns s r).store output report.text = .ok t →
      Converts r output workers turns s true t

theorem run_runPass (r : Database.Request) (workers : Int) (turns : List Nat) (w : World) :
    (runPass r workers turns).run w =
      ((passBy workers turns w.store r).outcome.mapError .pass,
        { w with
          store := (passBy workers turns w.store r).store
          records := w.records ++ (passBy workers turns w.store r).records }) := rfl

theorem passFailure_success {e : Database.PassError} {answer : Answer}
    (h : passFailure e = some answer) : answer.success = false := by
  unfold passFailure at h
  split at h
  · cases h
  · obtain rfl := Option.some.inj h
    rfl

/-- A pass with a report is followed by what becomes of writing the result: it is written, or
    refused, or the path is none. -/
theorem run_process_of_report (output : Text) {report : Database.Report}
    (hpass : (passBy workers turns w.store r).outcome = .ok report) :
    ∃ result w', (process r (some output) workers turns).run w = (result, w') ∧
      ((∃ answer t, result = .ok answer ∧ answer.success = true ∧ w'.store = t ∧
          Database.save (passBy workers turns w.store r).store output report.text = .ok t) ∨
        (∃ answer e, result = .ok answer ∧ answer.success = false ∧
          w'.store = (passBy workers turns w.store r).store ∧
          Database.save (passBy workers turns w.store r).store output report.text =
            .error (.file e)) ∨
        ∃ a, result = .error (.access a) ∧ (∀ e, a ≠ .file e) ∧
          Database.save (passBy workers turns w.store r).store output report.text = .error a) := by
  have hreport : Except.mapError Fault.pass (.ok report) = .ok report := rfl
  unfold process
  rw [Task.run_bind_ok (Task.run_outcome _ w), run_runPass]
  simp only [hpass, hreport]
  rw [Task.run_bind_ok (Task.run_store _)]
  cases hsave : Database.save (passBy workers turns w.store r).store output report.text with
  | ok t =>
    simp only [Option.getD_some, hsave]
    exact ⟨_, _, rfl, .inl ⟨_, t, rfl, rfl, rfl, rfl⟩⟩
  | error a =>
    cases a with
    | file e =>
      simp only [Option.getD_some, hsave]
      exact ⟨_, _, rfl, .inr (.inl ⟨_, e, rfl, rfl, rfl, rfl⟩)⟩
    | _ =>
      simp only [Option.getD_some, hsave]
      exact ⟨_, _, rfl, .inr (.inr ⟨_, rfl, by simp, rfl⟩)⟩

/-- **A conversion ends with an answer that says whether the result was written**, or with a
    fault that is no tool's. -/
theorem process_cases {result : Except Fault Answer}
    (h : (process r (some output) workers turns).run w = (result, w')) :
    (∃ answer, result = .ok answer ∧
      Converts r output workers turns w.store answer.success w'.store) ∨
      ∃ e, result = .error e ∧ ∀ cause, e ≠ .tool cause := by
  cases hpass : (passBy workers turns w.store r).outcome with
  | error e =>
    unfold process at h
    rw [Task.run_bind_ok (Task.run_outcome _ w), run_runPass] at h
    have hfault : Except.mapError Fault.pass (.error e : Except _ Database.Report) =
        .error (.pass e) := rfl
    simp only [hpass, hfault] at h
    cases hfailure : passFailure e with
    | none =>
      rw [hfailure] at h
      obtain ⟨rfl, _⟩ := Prod.mk.inj h
      refine .inr ⟨_, rfl, ?_⟩
      intro cause hcause
      cases hcause
    | some answer =>
      rw [hfailure] at h
      obtain ⟨rfl, rfl⟩ := Prod.mk.inj h
      refine .inl ⟨answer, rfl, ?_⟩
      rw [passFailure_success hfailure]
      exact .givenUp hpass
  | ok report =>
    obtain ⟨_, _, hrun, hends⟩ := run_process_of_report output hpass
    obtain ⟨rfl, rfl⟩ := Prod.mk.inj (h.symm.trans hrun)
    rcases hends with ⟨answer, t, rfl, hsuccess, rfl, hsave⟩ |
      ⟨answer, e, rfl, hsuccess, hstore, hsave⟩ | ⟨a, rfl, _, _⟩
    · refine .inl ⟨answer, rfl, ?_⟩
      rw [hsuccess]
      exact .written hpass hsave
    · refine .inl ⟨answer, rfl, ?_⟩
      rw [hsuccess, hstore]
      exact .unwritten hpass hsave
    · refine .inr ⟨_, rfl, ?_⟩
      intro cause hcause
      cases hcause

end Project

end ClangDb
