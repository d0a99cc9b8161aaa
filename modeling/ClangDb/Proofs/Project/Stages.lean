import ClangDb.Project.Generate
import ClangDb.Proofs.Project.Database

/-! # The stages of a run

    A stage runs one tool, or it converts the database.  `Takes` says what a stage
    did to the files and how it ended: a stage of a tool changes what the tool
    changes, and a conversion what `Converts` says.  Between stages nothing
    happens to the files.

    A stage ends with a return code, or the tool could not be run, or with a fault
    that is none of a tool and ends the run without an answer.

    Key theorems:
    - `databaseCommand_toolless`, `headersCommand_toolless`: commands,
    - `runStage_cases`: how a stage ends.
-/

namespace ClangDb

/-! ### Faults of tools -/

/-- Holds of a result that is not a tool that could not be run. -/
def Toolless {α : Type} (result : Except Fault α) : Prop := ∀ e, result ≠ .error (.tool e)

section Toolless

variable {α β : Type} {result : Except Fault α}

theorem toolless_ok (a : α) : Toolless (.ok a) := by
  intro e h
  cases h

theorem toolless_error {e : Fault} (h : ∀ cause, e ≠ .tool cause) :
    Toolless (.error e : Except Fault α) := by
  intro cause he
  exact h cause (Except.error.inj he)

theorem Toolless.ne {e : Fault} (h : Toolless (.error e : Except Fault α)) (cause : ToolError) :
    e ≠ .tool cause := by
  intro he
  exact h cause (by rw [he])

theorem Toolless.bind {f : α → Except Fault β} (h : Toolless result) (hf : ∀ a, Toolless (f a)) :
    Toolless (result >>= f) := by
  cases result with
  | ok a => exact hf a
  | error e => exact toolless_error h.ne

theorem Toolless.map {f : α → β} (h : Toolless result) : Toolless (result.map f) := by
  cases result with
  | ok a => exact toolless_ok _
  | error e => exact toolless_error h.ne

theorem toolless_mapError {ε : Type} {wrap : ε → Fault} (hwrap : ∀ e cause, wrap e ≠ .tool cause)
    (outcome : Except ε α) : Toolless (outcome.mapError wrap) := by
  cases outcome with
  | ok a => exact toolless_ok _
  | error e => exact toolless_error (hwrap e)

theorem toolless_mapM {f : α → Except Fault β} (hf : ∀ a, Toolless (f a)) (as : List α) :
    Toolless (as.mapM f) := by
  induction as with
  | nil => exact toolless_ok _
  | cons a as ih =>
    rw [List.mapM_cons]
    apply (hf a).bind
    intro b
    apply ih.bind
    intro bs
    exact toolless_ok _

end Toolless

/-! ### Commands -/

namespace Tool

theorem targetArguments_toolless (t : Target) : Toolless (targetArguments t) := by
  have hname : Toolless t.fullName := by
    unfold Target.fullName Target.joined
    cases t.name <;> simp [Toolless]
  apply hname.bind
  intro name
  exact toolless_ok _

theorem extraArguments_toolless (t : Target) : Toolless (extraArguments t) := by
  unfold extraArguments
  split
  · apply Toolless.map
    apply toolless_mapError
    intro e cause he
    cases he
  · split <;> simp [Toolless]

/-- **A command of a stage that cannot be made is no fault of a tool.** -/
theorem databaseCommand_toolless (tool project : Text) (t : Target) :
    Toolless (databaseCommand tool project t) := by
  apply (extraArguments_toolless t).bind
  intro flags
  apply (targetArguments_toolless t).bind
  intro target
  exact toolless_ok _

theorem headersCommand_toolless (tool project : Text) (t : Target) :
    Toolless (headersCommand tool project t) := by
  apply (extraArguments_toolless t).bind
  intro flags
  apply (targetArguments_toolless t).bind
  intro target
  exact toolless_ok _

theorem texts_toolless (n : Nat) (arguments : List Json) : Toolless (texts n arguments) := by
  induction arguments generalizing n with
  | nil => exact toolless_ok _
  | cons argument arguments ih =>
    cases argument with
    | string s => exact (ih (n + 1)).map
    | _ => simp [texts, Toolless]

theorem shownCommand_toolless (command : List Json) : Toolless (shownCommand command) := by
  have hholds : ∀ value s, Toolless (holds value s) := by
    intro value s
    unfold holds
    cases value <;> simp [Toolless]
  have hargument : ∀ argument, Toolless (shownArgument argument) := by
    intro argument
    apply (hholds argument " ").bind
    intro spaced
    split
    · exact toolless_ok _
    · apply (hholds argument "\"").bind
      intro quoted
      split <;> exact toolless_ok _
  apply (toolless_mapM hargument command).bind
  intro shown
  apply (texts_toolless 0 shown).bind
  intro parts
  exact toolless_ok _

end Tool

namespace Project

variable {tools : Tool.Runner} {host : Host} {p : Plan} {w w' : World}

/-! ### One stage -/

/-- How a stage ended: with a return code, or because its tool could not be run. -/
inductive StageEnd where
  | exited (code : Int)
  | stopped (e : ToolError)
  deriving DecidableEq, Repr

/-- A stage that was run: how it ended, and the files before and after. -/
structure Step where
  stage : Stage
  before : Store
  ended : StageEnd
  after : Store

/-- The command of the tool of a stage. -/
def Plan.command? (p : Plan) : Stage → Option (Except Fault (List Json))
  | .database => some (Tool.databaseCommand p.tool p.loaded.located.file.toText p.loaded.target)
  | .headers => some (Tool.headersCommand p.tool p.loaded.located.file.toText p.loaded.target)
  | _ => none

theorem Plan.command?_toolless {stage : Stage} {command : Except Fault (List Json)}
    (h : p.command? stage = some command) : Toolless command := by
  cases stage with
  | database =>
    obtain rfl := Option.some.inj h
    exact Tool.databaseCommand_toolless _ _ _
  | headers =>
    obtain rfl := Option.some.inj h
    exact Tool.headersCommand_toolless _ _ _
  | process => cases h
  | final => cases h

/-- What a stage of a run does. -/
inductive Takes (tools : Tool.Runner) (host : Host) (p : Plan) : Step → Prop where
  | exited {stage : Stage} {command : List Json} {ran : Tool.Ran} {w w' : World} :
      p.command? stage = some (.ok command) →
      (tools command (some p.loaded.engineDir) p.options.limit).run w = (.ok ran, w') →
      Takes tools host p ⟨stage, w.store, .exited ran.code, w'.store⟩
  | stopped {stage : Stage} {command : List Json} {e : ToolError} {w w' : World} :
      p.command? stage = some (.ok command) →
      (tools command (some p.loaded.engineDir) p.options.limit).run w = (.error (.tool e), w') →
      Takes tools host p ⟨stage, w.store, .stopped e, w'.store⟩
  | converted {success : Bool} {s t : Store} :
      Converts (p.request host) p.output p.options.workers p.options.turns s success t →
      Takes tools host p ⟨.process, s, .exited (if success then 0 else 1), t⟩

/-- How the tool of a stage comes to an end. -/
theorem runStageTool_cases (host : Host) {stage : Stage} {announcement : Text}
    {result : Except Fault Int} {command : Except Fault (List Json)}
    (hstage : p.command? stage = some command)
    (h : (runStageTool tools p announcement command).run w = (result, w')) :
    (∃ code, result = .ok code ∧
      Takes tools host p ⟨stage, w.store, .exited code, w'.store⟩) ∨
    (∃ e, result = .error (.tool e) ∧
      Takes tools host p ⟨stage, w.store, .stopped e, w'.store⟩) ∨
    ∃ e, result = .error e ∧ ∀ cause, e ≠ .tool cause := by
  have hcommand : Toolless command := p.command?_toolless hstage
  unfold runStageTool at h
  cases command with
  | error e =>
    right
    right
    obtain ⟨rfl, _⟩ := Prod.mk.inj h
    exact ⟨e, rfl, hcommand.ne⟩
  | ok arguments =>
    rw [Task.run_bind_ok (Task.run_ofExcept _ w)] at h
    -- the command is shown before the tool is run
    have hshow := Tool.shownCommand_toolless arguments
    cases hshown : Tool.shownCommand arguments with
    | error e =>
      right
      right
      rw [hshown] at hshow
      rw [hshown, Task.run_bind_error (Task.run_ofExcept _ w)] at h
      obtain ⟨rfl, _⟩ := Prod.mk.inj h
      exact ⟨e, rfl, hshow.ne⟩
    | ok shown =>
      rw [hshown, Task.run_bind_ok (Task.run_ofExcept _ w),
        Task.run_bind_ok (Task.run_log _ _ w)] at h
      -- the announcement is a record and leaves the files alone
      generalize hannounced : ({ w with records := w.records ++ [⟨.info, announcement ++ shown⟩] } :
        World) = w₁ at h
      have hstore : w₁.store = w.store := by rw [← hannounced]
      rw [← hstore]
      cases hrun : (tools arguments (some p.loaded.engineDir) p.options.limit).run w₁ with
      | mk outcome left =>
        cases outcome with
        | ok ran =>
          rw [Task.run_bind_ok hrun] at h
          obtain ⟨rfl, rfl⟩ := Prod.mk.inj h
          exact .inl ⟨ran.code, rfl, .exited hstage hrun⟩
        | error e =>
          rw [Task.run_bind_error hrun] at h
          obtain ⟨rfl, rfl⟩ := Prod.mk.inj h
          right
          by_cases htool : ∃ cause, e = .tool cause
          · obtain ⟨cause, rfl⟩ := htool
            exact .inl ⟨cause, rfl, .stopped hstage hrun⟩
          · exact .inr ⟨e, rfl, fun cause he => htool ⟨cause, he⟩⟩

/-- How a stage of a tool ends; an answer of a failure takes the place of the one before. -/
theorem toolStage_cases (host : Host) {stage : Stage} {announcement : Text}
    {command : Except Fault (List Json)} {answer : Answer} {failure : Int → Answer}
    {result : Except Fault (Int × Answer)}
    (hstage : p.command? stage = some command) (hfailure : ∀ code, (failure code).success = false)
    (h : ExceptT.run (do
      let code ← runStageTool tools p announcement command
      if code = 0 then return (0, answer)
      return (code, failure code)) w = (result, w')) :
    (∃ code answer', result = .ok (code, answer') ∧
      Takes tools host p ⟨stage, w.store, .exited code, w'.store⟩ ∧
      (answer'.success = true ↔ code = 0 ∧ answer.success = true)) ∨
    (∃ e, result = .error (.tool e) ∧
      Takes tools host p ⟨stage, w.store, .stopped e, w'.store⟩) ∨
    ∃ e, result = .error e ∧ ∀ cause, e ≠ .tool cause := by
  cases hrun : (runStageTool tools p announcement command).run w with
  | mk outcome left =>
    rcases runStageTool_cases host hstage hrun with
      ⟨code, rfl, htakes⟩ | ⟨e, rfl, htakes⟩ | ⟨e, rfl, hother⟩
    · rw [Task.run_bind_ok hrun] at h
      by_cases hcode : code = 0
      · rw [if_pos hcode] at h
        obtain ⟨rfl, rfl⟩ := Prod.mk.inj h
        refine .inl ⟨0, answer, rfl, ?_, ?_⟩
        · rw [← hcode]
          exact htakes
        · simp
      · rw [if_neg hcode] at h
        obtain ⟨rfl, rfl⟩ := Prod.mk.inj h
        refine .inl ⟨code, failure code, rfl, htakes, ?_⟩
        simp [hfailure code, hcode]
    · rw [Task.run_bind_error hrun] at h
      obtain ⟨rfl, rfl⟩ := Prod.mk.inj h
      exact .inr (.inl ⟨e, rfl, htakes⟩)
    · rw [Task.run_bind_error hrun] at h
      obtain ⟨rfl, rfl⟩ := Prod.mk.inj h
      exact .inr (.inr ⟨e, rfl, hother⟩)

/-- **How a stage ends**: with a return code, and then a success is one of a conversion or one
    that was there before; with a tool that could not be run; or with another fault. -/
theorem runStage_cases {stage : Stage} {answer : Answer} {result : Except Fault (Int × Answer)}
    (hstage : stage ≠ .final)
    (h : (runStage tools host p stage answer).run w = (result, w')) :
    (∃ code answer', result = .ok (code, answer') ∧
      Takes tools host p ⟨stage, w.store, .exited code, w'.store⟩ ∧
      (answer'.success = true ↔ code = 0 ∧ (stage = .process ∨ answer.success = true))) ∨
    (∃ e, result = .error (.tool e) ∧
      Takes tools host p ⟨stage, w.store, .stopped e, w'.store⟩) ∨
    ∃ e, result = .error e ∧ ∀ cause, e ≠ .tool cause := by
  cases stage with
  | database =>
    have hcommand : p.command? .database = some _ := rfl
    have hends := toolStage_cases host hcommand (fun _ => rfl) h
    simpa using hends
  | headers =>
    have hcommand : p.command? .headers = some _ := rfl
    have hends := toolStage_cases host hcommand (fun _ => rfl) h
    simpa using hends
  | process =>
    unfold runStage at h
    rw [Task.run_bind_ok (Task.run_log _ _ w)] at h
    generalize hlogged : ({ w with records := w.records ++ [⟨.info, "Processing " ++ p.input⟩] } :
      World) = w₁ at h
    have hstore : w₁.store = w.store := by rw [← hlogged]
    rw [← hstore]
    cases hrun : (process (p.request host) (some p.output) p.options.workers
        p.options.turns).run w₁ with
    | mk outcome left =>
      rcases process_cases hrun with ⟨converted, rfl, hconverts⟩ | ⟨e, rfl, hother⟩
      · rw [Task.run_bind_ok hrun] at h
        obtain ⟨rfl, rfl⟩ := Prod.mk.inj h
        -- the answer of the conversion takes the place of the one before
        refine .inl ⟨_, converted, rfl, .converted hconverts, ?_⟩
        cases converted.success <;> simp
      · rw [Task.run_bind_error hrun] at h
        obtain ⟨rfl, rfl⟩ := Prod.mk.inj h
        exact .inr (.inr ⟨e, rfl, hother⟩)
  | final => exact absurd rfl hstage

end Project

end ClangDb
