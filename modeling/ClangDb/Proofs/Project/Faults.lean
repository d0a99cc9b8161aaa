import ClangDb.Proofs.Database.Raised
import ClangDb.Proofs.Project.Generate
import ClangDb.Proofs.Project.Launch

/-! # Where a run ends with a fault

    A run takes the values of its target as they are.  Before the first stage they
    name the target, the label and the folder of the response files.  A stage of a
    tool makes its command of them and runs it, and the conversion writes what it
    has made.  A tool that cannot be run ends the run with an answer; everything
    else that is amiss in a stage ends it with a fault.

    A stage comes only after those before it have ended with zero.  What it starts
    from is what they left, and that depends on the files alone, so the stages and
    their faults are told without the records of the run.

    Key theorems:
    - `process_error_iff`: the conversion,
    - `runStage_error_iff`, `runStages_error_iff`: a stage, and the loop over the stages,
    - `generate_error_iff`: a run,
    - `operations_error_iff`: a run, building and launching.
-/

namespace ClangDb

namespace Project

open Database (passBy)
open Sequencer (Proper within finished)
open Tool (IsText NameStumbles FlagsStumble RunStumbles NotOfTool)

variable {host : Host} {p : Plan} {w w' : World} {s t : Store} {e : Fault} {answer : Answer}

/-! ### Converting -/

section Converting

variable {r : Database.Request} {output : Text} {workers : Int} {turns : List Nat}

/-- Holds of a conversion that ends with a fault, and of the fault: what was made has no bytes, or
    there is no path to write it to. -/
inductive ConversionStumbles (r : Database.Request) (output : Text) (workers : Int)
    (turns : List Nat) (s : Store) : Fault → Prop where
  | noBytes {report : Database.Report} {e : Utf8.EncodeError} :
      (passBy workers turns s r).outcome = .ok report → Utf8.encode report.text = .error e →
      ConversionStumbles r output workers turns s (.access (.unencodable e))
  | noPath {report : Database.Report} {bytes : List UInt8} {a : AccessError} :
      (passBy workers turns s r).outcome = .ok report → Utf8.encode report.text = .ok bytes →
      Store.NoPath output a → ConversionStumbles r output workers turns s (.access a)

theorem ConversionStumbles.notOfTool (h : ConversionStumbles r output workers turns s e) :
    NotOfTool e := by
  cases h <;> simp [NotOfTool]

theorem refuses_save_iff {path text : Text} {a : AccessError} :
    Store.Refuses (Database.save s path text) a ↔
      (∃ e, Utf8.encode text = .error e ∧ a = .unencodable e) ∨
      ∃ bytes, Utf8.encode text = .ok bytes ∧ Store.NoPath path a := by
  unfold Database.save
  cases Utf8.encode text with
  | error e =>
    rw [Store.refuses_error_iff]
    simp only [Except.error.injEq, exists_eq_left', reduceCtorEq, false_and, exists_false, or_false]
    exact and_iff_left_of_imp (by rintro rfl; simp)
  | ok bytes => simp [Store.refuses_write_iff]

/-- A conversion ends with a fault where its result is refused. -/
theorem conversionStumbles_iff : ConversionStumbles r output workers turns s e ↔
    ∃ report, (passBy workers turns s r).outcome = .ok report ∧
      ∃ a, Store.Refuses (Database.save (passBy workers turns s r).store output report.text) a ∧
        e = .access a := by
  simp only [refuses_save_iff]
  constructor
  · intro h
    cases h with
    | noBytes hreport hbytes => exact ⟨_, hreport, _, .inl ⟨_, hbytes, rfl⟩, rfl⟩
    | noPath hreport hbytes ha => exact ⟨_, hreport, _, .inr ⟨_, hbytes, ha⟩, rfl⟩
  · rintro ⟨report, hreport, a, ⟨cause, hbytes, rfl⟩ | ⟨bytes, hbytes, ha⟩, rfl⟩
    · exact .noBytes hreport hbytes
    · exact .noPath hreport hbytes ha

/-- **Where a conversion ends with a fault.** -/
theorem process_error_iff : ((process r (some output) workers turns).run w).1 = .error e ↔
    ConversionStumbles r output workers turns w.store e := by
  rw [conversionStumbles_iff]
  unfold process
  rw [Task.run_bind_ok (Task.run_outcome _ w), run_runPass]
  cases hpass : (passBy workers turns w.store r).outcome with
  | error cause =>
    -- a pass is given up for a path that is none, never for a file
    have hanswer : ∃ answer, passFailure cause = some answer := by
      cases cause with
      | badPath a =>
        cases a with
        | file fe => exact absurd rfl (Database.passBy_ne_badPath hpass fe)
        | _ => exact ⟨_, rfl⟩
      | _ => exact ⟨_, rfl⟩
    obtain ⟨answer, hanswer⟩ := hanswer
    have hfault : Except.mapError Fault.pass (.error cause : Except _ Database.Report) =
        .error (.pass cause) := rfl
    simp only [hfault, hanswer]
    exact iff_of_false (fun h => by cases h) (by simp)
  | ok report =>
    have hreport : Except.mapError Fault.pass (.ok report) = .ok report := rfl
    simp only [hreport, Except.ok.injEq, exists_eq_left']
    rw [Task.run_bind_ok (Task.run_store _)]
    simp only [Option.getD_some]
    cases hsave : Database.save (passBy workers turns w.store r).store output report.text with
    | ok t =>
      refine iff_of_false (fun h => by cases h) ?_
      rintro ⟨a, ha, _⟩
      exact Store.not_refuses_ok t ha
    | error a =>
      cases a with
      | file fe =>
        refine iff_of_false (fun h => by cases h) ?_
        rintro ⟨a, ha, _⟩
        exact Store.not_refuses_file fe ha
      | _ =>
        simp only [Store.refuses_error_iff]
        refine error_eq_error_iff.trans ?_
        simp

end Converting

/-! ### One stage -/

/-- Holds of a stage that ends with a fault that is none of a tool, and of the fault. -/
inductive StageStumbles (host : Host) (p : Plan) (s : Store) : Stage → Fault → Prop where
  | flags {stage : Stage} {command : Except Fault (List Json)} {e : Fault} :
      p.command? stage = some command → FlagsStumble p.loaded.target e →
      StageStumbles host p s stage e
  | run {stage : Stage} {command : List Json} {e : Fault} :
      p.command? stage = some (.ok command) →
      RunStumbles s command (some p.loaded.engineDir) p.options.limit e →
      StageStumbles host p s stage e
  | process {e : Fault} :
      ConversionStumbles (p.request host) p.output p.options.workers p.options.turns s e →
      StageStumbles host p s .process e

theorem command?_eq_error_iff (hname : IsText p.loaded.target.name) {stage : Stage} :
    p.command? stage = some (.error e) ↔
      (∃ command, p.command? stage = some command) ∧ FlagsStumble p.loaded.target e := by
  cases stage with
  | database => simp [Plan.command?, Tool.databaseCommand_eq_error_iff hname]
  | headers => simp [Plan.command?, Tool.headersCommand_eq_error_iff hname]
  | process => simp [Plan.command?]
  | final => simp [Plan.command?]

/-- Where the tool of a stage ends with a fault that is none of it. -/
theorem runStageTool_error_iff {announcement : Text} {command : Except Fault (List Json)}
    (hcommand : Toolless command) :
    ((runStageTool Tool.run p announcement command).run w).1 = .error e ∧ NotOfTool e ↔
      command = .error e ∨ ∃ made, command = .ok made ∧
        RunStumbles w.store made (some p.loaded.engineDir) p.options.limit e := by
  unfold runStageTool
  cases command with
  | error e' =>
    rw [Task.run_bind_error (Task.run_ofExcept _ w)]
    simp only [error_eq_error_iff, reduceCtorEq, false_and, exists_false, or_false]
    exact and_iff_left_of_imp fun he => he ▸ hcommand.ne
  | ok made =>
    rw [Task.run_bind_ok (Task.run_ofExcept _ w)]
    simp only [reduceCtorEq, Except.ok.injEq, exists_eq_left', false_or]
    -- the command is shown twice, in the announcement and when it is run
    cases hshown : Tool.shownCommand made with
    | error e' =>
      have hshow : Toolless (.error e' : Except Fault Text) := by
        rw [← hshown]
        exact Tool.shownCommand_toolless made
      rw [Task.run_bind_error (Task.run_ofExcept _ w), Tool.runStumbles_of_unshown hshown,
        error_eq_error_iff]
      exact and_iff_left_of_imp fun he => he ▸ hshow.ne
    | ok shown =>
      rw [Task.run_bind_ok (Task.run_ofExcept _ w), Task.run_bind_ok (Task.run_log _ _ w),
        Task.bind_error_iff]
      refine Iff.trans (and_congr_left' (or_iff_left ?_)) Tool.run_stumbles_iff
      rintro ⟨ran, w₁, _, h⟩
      cases h

/-- A stage of a tool ends with a fault where its tool does. -/
theorem toolStage_error_iff {stage : Stage} {announcement : Text}
    {command : Except Fault (List Json)} {failure : Int → Answer}
    (hname : IsText p.loaded.target.name) (hstage : p.command? stage = some command) :
    (ExceptT.run (do
      let code ← runStageTool Tool.run p announcement command
      if code = 0 then return (0, answer)
      return (code, failure code)) w).1 = .error e ∧ NotOfTool e ↔
    StageStumbles host p w.store stage e := by
  rw [Task.bind_error_iff]
  refine Iff.trans (and_congr_left' (or_iff_left ?_)) ?_
  · rintro ⟨code, w₁, _, h⟩
    split at h <;> cases h
  rw [runStageTool_error_iff (p.command?_toolless hstage)]
  constructor
  · rintro (rfl | ⟨made, rfl, hrun⟩)
    · obtain ⟨_, hflags⟩ := (command?_eq_error_iff hname).mp hstage
      exact .flags hstage hflags
    · exact .run hstage hrun
  · intro h
    cases h with
    | flags _ hflags =>
      have herror := (command?_eq_error_iff hname).mpr ⟨⟨command, hstage⟩, hflags⟩
      exact .inl (Option.some.inj (hstage.symm.trans herror))
    | run hmade hrun => exact .inr ⟨_, Option.some.inj (hstage.symm.trans hmade), hrun⟩
    | process => cases hstage

/-- **Where a stage ends with a fault that is none of a tool.** -/
theorem runStage_error_iff (hname : IsText p.loaded.target.name) (answer : Answer)
    {stage : Stage} (hstage : stage ≠ .final) :
    ((runStage Tool.run host p stage answer).run w).1 = .error e ∧ NotOfTool e ↔
      StageStumbles host p w.store stage e := by
  cases stage with
  | database => exact toolStage_error_iff hname rfl
  | headers => exact toolStage_error_iff hname rfl
  | process =>
    unfold runStage
    rw [Task.run_bind_ok (Task.run_log _ _ w), Task.bind_error_iff, process_error_iff]
    refine Iff.trans (and_congr_left' (or_iff_left ?_)) ?_
    · rintro ⟨converted, w₁, _, h⟩
      cases h
    · constructor
      · rintro ⟨h, _⟩
        exact .process h
      · intro h
        cases h with
        | flags h _ => cases h
        | run h _ => cases h
        | process h => exact ⟨h, h.notOfTool⟩
  | final => exact absurd rfl hstage

/-! ### What a stage does is one thing only -/

theorem Converts.unique {r : Database.Request} {output : Text} {workers : Int} {turns : List Nat}
    {success success' : Bool} {t' : Store} (h : Converts r output workers turns s success t)
    (h' : Converts r output workers turns s success' t') : success = success' ∧ t = t' := by
  cases h with
  | givenUp he =>
    cases h' with
    | givenUp _ => exact ⟨rfl, rfl⟩
    | unwritten hreport _ => cases he.symm.trans hreport
    | written hreport _ => cases he.symm.trans hreport
  | unwritten hreport hsave =>
    cases h' with
    | givenUp he => cases he.symm.trans hreport
    | unwritten _ _ => exact ⟨rfl, rfl⟩
    | written hreport' hsave' =>
      obtain rfl := Except.ok.inj (hreport.symm.trans hreport')
      cases hsave.symm.trans hsave'
  | written hreport hsave =>
    cases h' with
    | givenUp he => cases he.symm.trans hreport
    | unwritten hreport' hsave' =>
      obtain rfl := Except.ok.inj (hreport.symm.trans hreport')
      cases hsave.symm.trans hsave'
    | written hreport' hsave' =>
      obtain rfl := Except.ok.inj (hreport.symm.trans hreport')
      exact ⟨rfl, Except.ok.inj (hsave.symm.trans hsave')⟩

/-- The tool of a stage that is run on the same files ends alike and leaves the same. -/
theorem tool_unique {stage : Stage} {command command' : List Json} {w₁ w₁' w₂ w₂' : World}
    {result result' : Except Fault Tool.Ran} (hcommand : p.command? stage = some (.ok command))
    (hrun : (Tool.run command (some p.loaded.engineDir) p.options.limit).run w₁ = (result, w₁'))
    (hcommand' : p.command? stage = some (.ok command'))
    (hrun' : (Tool.run command' (some p.loaded.engineDir) p.options.limit).run w₂ = (result', w₂'))
    (hbefore : w₁.store = w₂.store) : result = result' ∧ w₁'.store = w₂'.store := by
  obtain rfl := Except.ok.inj (Option.some.inj (hcommand.symm.trans hcommand'))
  have halike := Tool.ofStore_run command (some p.loaded.engineDir) p.options.limit w₁ w₂ hbefore
  rwa [hrun, hrun'] at halike

/-- **A stage that is run on the same files ends alike and leaves the same.** -/
theorem Takes.unique {step step' : Step} (h : Takes Tool.run host p step)
    (h' : Takes Tool.run host p step') (hstage : step.stage = step'.stage)
    (hbefore : step.before = step'.before) :
    step.ended = step'.ended ∧ step.after = step'.after := by
  -- the tool of a stage ends one way on these files, so it cannot both exit and not be run
  cases h with
  | @exited stage command ran w₁ w₁' hcommand hrun =>
    cases h' with
    | exited hcommand' hrun' =>
      obtain rfl := hstage
      obtain ⟨hresult, hafter⟩ := tool_unique hcommand hrun hcommand' hrun' hbefore
      obtain rfl := Except.ok.inj hresult
      exact ⟨rfl, hafter⟩
    | stopped hcommand' hrun' =>
      obtain rfl := hstage
      cases (tool_unique hcommand hrun hcommand' hrun' hbefore).1
    | converted _ =>
      obtain rfl := hstage
      cases hcommand
  | @stopped stage command cause w₁ w₁' hcommand hrun =>
    cases h' with
    | exited hcommand' hrun' =>
      obtain rfl := hstage
      cases (tool_unique hcommand hrun hcommand' hrun' hbefore).1
    | stopped hcommand' hrun' =>
      obtain rfl := hstage
      obtain ⟨hresult, hafter⟩ := tool_unique hcommand hrun hcommand' hrun' hbefore
      obtain rfl := Fault.tool.inj (Except.error.inj hresult)
      exact ⟨rfl, hafter⟩
    | converted _ =>
      obtain rfl := hstage
      cases hcommand
  | converted hconverts =>
    cases h' with
    | exited hcommand' _ =>
      obtain rfl := hstage
      cases hcommand'
    | stopped hcommand' _ =>
      obtain rfl := hstage
      cases hcommand'
    | converted hconverts' =>
      obtain rfl := hbefore
      obtain ⟨rfl, rfl⟩ := hconverts.unique hconverts'
      exact ⟨rfl, rfl⟩

theorem ConversionStumbles.not_converts {r : Database.Request} {output : Text} {workers : Int}
    {turns : List Nat} {success : Bool} (h : ConversionStumbles r output workers turns s e) :
    ¬ Converts r output workers turns s success t := by
  obtain ⟨report, hreport, a, ha, _⟩ := conversionStumbles_iff.mp h
  intro hconverts
  cases hconverts with
  | givenUp he => cases he.symm.trans hreport
  | unwritten hreport' hsave =>
    obtain rfl := Except.ok.inj (hreport.symm.trans hreport')
    rw [hsave] at ha
    exact Store.not_refuses_file _ ha
  | written hreport' hsave =>
    obtain rfl := Except.ok.inj (hreport.symm.trans hreport')
    rw [hsave] at ha
    exact Store.not_refuses_ok _ ha

/-- The tool of a stage that ends with a fault is not run, or ends with that fault. -/
theorem StageStumbles.of_tool (hname : IsText p.loaded.target.name) {stage : Stage}
    {command : List Json} (h : StageStumbles host p w.store stage e)
    (hcommand : p.command? stage = some (.ok command)) :
    ((Tool.run command (some p.loaded.engineDir) p.options.limit).run w).1 = .error e ∧
      NotOfTool e := by
  cases h with
  | flags _ hflags =>
    have herror := (command?_eq_error_iff hname).mpr ⟨⟨_, hcommand⟩, hflags⟩
    cases hcommand.symm.trans herror
  | run hmade hrun =>
    obtain rfl := Except.ok.inj (Option.some.inj (hcommand.symm.trans hmade))
    exact Tool.run_stumbles_iff.mpr hrun
  | process => cases hcommand

/-- A stage that ends with a fault ends no other way. -/
theorem StageStumbles.not_takes (hname : IsText p.loaded.target.name) {step : Step}
    (h : StageStumbles host p step.before step.stage e) : ¬ Takes Tool.run host p step := by
  intro htakes
  cases htakes with
  | exited hcommand hrun =>
    obtain ⟨hfault, _⟩ := h.of_tool hname hcommand
    rw [hrun] at hfault
    cases hfault
  | stopped hcommand hrun =>
    obtain ⟨hfault, htool⟩ := h.of_tool hname hcommand
    rw [hrun] at hfault
    exact htool _ (Except.error.inj hfault).symm
  | converted hconverts =>
    cases h with
    | flags h _ => cases h
    | run h _ => cases h
    | process h => exact h.not_converts hconverts

/-! ### The stages of a run -/

/-- Holds of stages of which one ends with a fault after those before it have ended with zero, and
    of the fault. -/
inductive StagesStumble (host : Host) (p : Plan) : Store → List Stage → Fault → Prop where
  | here {s : Store} {stage : Stage} {rest : List Stage} {e : Fault} :
      StageStumbles host p s stage e → StagesStumble host p s (stage :: rest) e
  | later {s t : Store} {stage : Stage} {rest : List Stage} {e : Fault} :
      Takes Tool.run host p ⟨stage, s, .exited 0, t⟩ → StagesStumble host p t rest e →
      StagesStumble host p s (stage :: rest) e

/-- After a stage that has ended, the others are left if it has ended with zero. -/
theorem Takes.stagesStumble_iff (hname : IsText p.loaded.target.name) {step : Step}
    {rest : List Stage} (h : Takes Tool.run host p step) :
    StagesStumble host p step.before (step.stage :: rest) e ↔
      step.ended = .exited 0 ∧ StagesStumble host p step.after rest e := by
  constructor
  · intro hstumbles
    cases hstumbles with
    | here hstage => exact absurd h (hstage.not_takes hname)
    | later htakes hrest =>
      obtain ⟨hended, hafter⟩ := h.unique htakes rfl rfl
      rw [hended, hafter]
      exact ⟨rfl, hrest⟩
  · rintro ⟨hended, hrest⟩
    obtain ⟨stage, before, ended, after⟩ := step
    obtain rfl : ended = .exited 0 := hended
    exact .later h hrest

/-- A stage that ends with a fault ends with one only. -/
theorem StageStumbles.unique (hname : IsText p.loaded.target.name) {stage : Stage} {e' : Fault}
    (hstage : stage ≠ .final) (h : StageStumbles host p s stage e)
    (h' : StageStumbles host p s stage e') : e = e' := by
  -- both are what running the stage ends with, in a world with these files
  have hfirst := ((runStage_error_iff (w := ⟨s, [], []⟩) hname notRun hstage).mpr h).1
  have hsecond := ((runStage_error_iff (w := ⟨s, [], []⟩) hname notRun hstage).mpr h').1
  exact Except.error.inj (hfirst.symm.trans hsecond)

/-- A stage that ends with a fault leaves none to come. -/
theorem StageStumbles.stagesStumble_iff (hname : IsText p.loaded.target.name) {stage : Stage}
    {rest : List Stage} {e' : Fault} (hstage : stage ≠ .final)
    (h : StageStumbles host p s stage e') : StagesStumble host p s (stage :: rest) e ↔ e = e' := by
  constructor
  · intro hstumbles
    cases hstumbles with
    | here h' => exact h'.unique hname hstage h
    | later htakes _ => exact absurd htakes (StageStumbles.not_takes hname h)
  · rintro rfl
    exact .here h

/-- **Where the loop over the stages ends with a fault.**  The run stands within a stage. -/
theorem runStages_error_iff (hname : IsText p.loaded.target.name) {fuel : Nat} (answer : Answer)
    (done : List Stage) {stage : Stage} {rest : List Stage}
    (hproper : Proper (done ++ stage :: rest)) (hfuel : rest.length < fuel) :
    ((runStages Tool.run host p fuel (within done stage .inProgress rest) stage answer).run w).1 =
      .error e ↔ StagesStumble host p w.store (stage :: rest) e := by
  induction fuel generalizing done stage rest answer w with
  | zero => exact absurd hfuel (Nat.not_lt_zero _)
  | succ fuel ih =>
    obtain ⟨hdone, _, hfinal, _⟩ := hproper.split
    rw [runStages, Task.run_bind_ok (Task.run_outcome _ w)]
    cases hrun : (runStage Tool.run host p stage answer).run w with
    | mk result left =>
      rcases runStage_cases hfinal hrun with
        ⟨code, answer', rfl, htakes, _⟩ | ⟨cause, rfl, htakes⟩ | ⟨e', rfl, hother⟩
      · rw [htakes.stagesStumble_iff hname]
        simp only
        rw [Task.run_bind_ok (Task.run_report _ left)]
        -- the stage has exited, and the sequencer goes on if its code is zero
        by_cases hcode : code = 0
        · subst hcode
          cases rest with
          | nil =>
            rw [Sequencer.notify_last hproper]
            refine iff_of_false (fun h => by cases h) ?_
            rintro ⟨_, h⟩
            cases h
          | cons next more =>
            -- the next stage starts from what this one has left
            obtain ⟨records, hnotify⟩ := Sequencer.notify_next hproper
            rw [hnotify]
            have hproper' : Proper ((done ++ [stage]) ++ next :: more) := by
              rwa [List.append_assoc]
            have hrest := ih (w := { left with records := left.records ++ records }) answer'
              (done ++ [stage]) hproper' (Nat.lt_of_succ_lt_succ hfuel)
            simpa using hrest
        · obtain ⟨records, hnotify⟩ := Sequencer.notify_failed hdone hcode
          rw [hnotify]
          refine iff_of_false (fun h => by cases h) ?_
          rintro ⟨h, _⟩
          exact hcode (StageEnd.exited.inj h)
      · -- the tool could not be run, and the run is answered
        rw [htakes.stagesStumble_iff hname]
        refine iff_of_false (fun h => by cases h) ?_
        rintro ⟨h, _⟩
        cases h
      · -- the fault is none of a tool, and it is passed on
        have hstumbles : StageStumbles host p w.store stage e' :=
          (runStage_error_iff hname answer hfinal).mp ⟨by rw [hrun], hother⟩
        rw [hstumbles.stagesStumble_iff hname hfinal]
        cases e' with
        | tool cause => exact absurd rfl (hother cause)
        | _ => exact error_eq_error_iff

/-- The stages of a run. -/
def Plan.stages (p : Plan) : List Stage :=
  (Sequencer.ofParts (!p.options.skipDatabase) p.options.headers).stages

/-- A run ends with a fault where its stages do. -/
theorem runAll_error_iff (hname : IsText p.loaded.target.name) :
    ((runAll Tool.run host p).run w).1 = .error e ↔ StagesStumble host p w.store p.stages e := by
  have hproper := Sequencer.proper_ofParts (!p.options.skipDatabase) p.options.headers
  have hidle : Sequencer.ofParts (!p.options.skipDatabase) p.options.headers =
      ⟨p.stages, [], none⟩ := rfl
  unfold runAll
  rw [hidle] at hproper ⊢
  generalize p.stages = stages at hproper ⊢
  cases stages with
  | nil => exact absurd rfl hproper.ne_nil
  | cons stage rest =>
    -- starting moves into the first stage, and the files stay
    obtain ⟨records, hstart⟩ := Sequencer.start_idle hproper
    simp only [hstart]
    rw [Task.run_bind_ok (Task.run_report _ w)]
    exact runStages_error_iff (w := { w with records := w.records ++ records }) hname notRun []
      hproper (Nat.lt_succ_self _)

/-! ### A run -/

/-- Holds of a target with no folder for response files, and of the fault. -/
inductive FolderStumbles (t : Target) : Fault → Prop where
  | platform : ¬ IsText t.platform → FolderStumbles t (.wrongType (.pathName t.platform))
  | configuration : IsText t.platform → ¬ IsText t.configuration →
      FolderStumbles t (.wrongType (.pathName t.configuration))

theorem pathName_cases (v : Json) : (∃ s, v = .string s ∧ Target.pathName v = .ok s) ∨
    ¬ IsText v ∧ Target.pathName v = .error (.wrongType (.pathName v)) := by
  cases v with
  | string s => exact .inl ⟨s, rfl, rfl⟩
  | _ => exact .inr ⟨by simp [IsText], rfl⟩

/-- The folder is made of the platform first. -/
theorem responseFileFolder_eq_error_iff {t : Target} {folder : Path} :
    t.responseFileFolder folder = .error e ↔ FolderStumbles t e := by
  unfold Target.responseFileFolder
  rw [bind_eq_error_iff]
  rcases pathName_cases t.platform with ⟨platform, hplatform, hname⟩ | ⟨hplatform, hname⟩
  · have htext : IsText t.platform := ⟨platform, hplatform⟩
    simp only [hname, reduceCtorEq, Except.ok.injEq, exists_eq_left', false_or]
    rw [bind_eq_error_iff]
    rcases pathName_cases t.configuration with ⟨s, hs, hname'⟩ | ⟨hnot, hname'⟩
    · rw [hname']
      refine iff_of_false ?_ ?_
      · rintro (h | ⟨_, _, h⟩) <;> cases h
      · rintro (h | ⟨_, h⟩)
        · exact h htext
        · exact h ⟨s, hs⟩
    · simp only [hname', reduceCtorEq, false_and, exists_false, or_false, error_eq_error_iff]
      constructor
      · rintro rfl
        exact .configuration htext hnot
      · rintro (h | _)
        · exact absurd htext h
        · rfl
  · simp only [hname, reduceCtorEq, false_and, exists_false, or_false, error_eq_error_iff]
    constructor
    · rintro rfl
      exact .platform hplatform
    · rintro (_ | ⟨htext, _⟩)
      · rfl
      · exact absurd htext hplatform

/-- Holds of a target that has no label, and of the fault: the suffix of an editor target is added
    to a configuration that is neither a text nor a list. -/
inductive LabelStumbles (t : Target) : Fault → Prop where
  | intro : t.withEditor = true → ¬ IsText t.configuration →
      (∀ elements, t.configuration ≠ .array elements) →
      LabelStumbles t (.wrongType (.join "+=" t.configuration))

theorem labelled_eq_error_iff {t : Target} : t.labelled = .error e ↔ LabelStumbles t e := by
  unfold Target.labelled
  cases heditor : t.withEditor with
  | false =>
    refine iff_of_false (by simp) ?_
    rintro ⟨h, _⟩
    cases heditor.symm.trans h
  | true =>
    rw [if_pos rfl]
    cases hconfiguration : t.configuration with
    | string s =>
      refine iff_of_false (by simp [Target.joined, Except.map]) ?_
      rintro ⟨_, hnot, _⟩
      exact hnot ⟨s, hconfiguration⟩
    | array elements =>
      refine iff_of_false (by simp) ?_
      rintro ⟨_, _, hnot⟩
      exact hnot elements hconfiguration
    | _ =>
      constructor
      · intro h
        obtain rfl := Except.error.inj h
        rw [← hconfiguration]
        exact .intro heditor (by simp [IsText, hconfiguration]) (by simp [hconfiguration])
      · rintro ⟨_⟩
        rw [hconfiguration]
        rfl

/-- A label leaves the name of its target. -/
theorem name_of_labelled {t target : Target} {label : Json}
    (h : t.labelled = .ok (label, target)) : target.name = t.name := by
  unfold Target.labelled at h
  split at h
  · simp only at h
    split at h
    · obtain ⟨_, rfl⟩ := Prod.mk.inj (Except.ok.inj h)
      rfl
    · cases hjoined : Target.joined "+=" t.configuration "-Editor" with
      | error e =>
        rw [hjoined] at h
        cases h
      | ok s =>
        rw [hjoined] at h
        obtain ⟨_, rfl⟩ := Prod.mk.inj (Except.ok.inj h)
        rfl
  · obtain ⟨_, rfl⟩ := Prod.mk.inj (Except.ok.inj h)
    rfl

/-- A plan is there unless the target has no folder for response files. -/
theorem Plan.of_eq_error_iff {loaded : Loaded} {options : GenerateOptions} :
    Plan.of host loaded options = .error e ↔ FolderStumbles loaded.target e := by
  unfold Plan.of
  rw [bind_eq_error_iff, responseFileFolder_eq_error_iff]
  refine or_iff_left ?_
  rintro ⟨_, _, h⟩
  cases h

theorem Plan.loaded_of {loaded : Loaded} {options : GenerateOptions}
    (h : Plan.of host loaded options = .ok p) : p.loaded = loaded := by
  unfold Plan.of at h
  cases hfolder : loaded.target.responseFileFolder loaded.located.folder with
  | error e =>
    rw [hfolder] at h
    cases h
  | ok folder =>
    rw [hfolder] at h
    obtain rfl := Except.ok.inj h
    rfl

/-- A plan for a target with a label has its name. -/
theorem isText_of_plan {loaded : Loaded} {options : GenerateOptions} {label : Json}
    {target : Target} (hname : IsText loaded.target.name)
    (hlabelled : loaded.target.labelled = .ok (label, target))
    (hplan : Plan.of host { loaded with target := target } options = .ok p) :
    IsText p.loaded.target.name := by
  rw [Plan.loaded_of hplan]
  exact (name_of_labelled hlabelled).symm ▸ hname

/-- Holds of a project for which a run ends with a fault, and of the fault. -/
inductive GenerateStumbles (host : Host) (s : Store) (p : Loaded) (options : GenerateOptions) :
    Fault → Prop where
  | name {e : Fault} : NameStumbles p.target e → GenerateStumbles host s p options e
  | label {e : Fault} : IsText p.target.name → LabelStumbles p.target e →
      GenerateStumbles host s p options e
  | folder {label : Json} {target : Target} {e : Fault} : IsText p.target.name →
      p.target.labelled = .ok (label, target) → FolderStumbles target e →
      GenerateStumbles host s p options e
  | stages {label : Json} {target : Target} {plan : Plan} {e : Fault} : IsText p.target.name →
      p.target.labelled = .ok (label, target) →
      Plan.of host { p with target := target } options = .ok plan →
      StagesStumble host plan s plan.stages e → GenerateStumbles host s p options e

variable {located : Located} {config : Config} {project engine index : Json}
  {options : GenerateOptions}

/-- **Where a run ends with a fault.** -/
theorem generate_error_iff (haccepted : Accepted host w project located config)
    (hindex : IsNumber index) :
    ((generate host project engine index options).run w).1 = .error e ↔
      ∃ loaded, loadedFrom located config engine index = .ok loaded ∧
        GenerateStumbles host w.store loaded options e := by
  refine accepted_error_iff haccepted hindex (fun _ => rfl) ?_
  intro p w₁ hstore
  rw [← hstore]
  simp only
  rw [Task.run_bind_ok (Task.run_log _ _ _), Task.run_bind_ok (Task.run_log _ _ _)]
  constructor
  · -- each value that is there is what the next fault comes after
    intro h
    rcases Task.ofExcept_bind_error_iff.mp h with h | ⟨name, hfull, h⟩
    · exact .name (Tool.fullName_eq_error_iff.mp h)
    have hname : IsText p.target.name := Tool.fullName_eq_ok_iff.mp ⟨name, hfull⟩
    rcases Task.ofExcept_bind_error_iff.mp h with h | ⟨⟨label, target⟩, hlabelled, h⟩
    · exact .label hname (labelled_eq_error_iff.mp h)
    rw [Task.run_bind_ok (Task.run_log _ _ _)] at h
    rcases Task.ofExcept_bind_error_iff.mp h with h | ⟨plan, hplan, h⟩
    · exact .folder hname hlabelled (Plan.of_eq_error_iff.mp h)
    rcases Task.bind_error_iff.mp h with h | ⟨ended, w₂, _, h⟩
    · have hstages := (runAll_error_iff (isText_of_plan hname hlabelled hplan)).mp h
      exact .stages hname hlabelled hplan hstages
    · -- whatever the run came to is answered
      simp only at h
      split at h <;> cases h
  · intro h
    cases h with
    | name h => exact Task.ofExcept_bind_error_iff.mpr (.inl (Tool.fullName_eq_error_iff.mpr h))
    | label hname h =>
      obtain ⟨name, hfull⟩ := Tool.fullName_eq_ok_iff.mpr hname
      rw [hfull, Task.run_bind_ok (Task.run_ofExcept _ _)]
      exact Task.ofExcept_bind_error_iff.mpr (.inl (labelled_eq_error_iff.mpr h))
    | folder hname hlabelled h =>
      obtain ⟨name, hfull⟩ := Tool.fullName_eq_ok_iff.mpr hname
      rw [hfull, Task.run_bind_ok (Task.run_ofExcept _ _), hlabelled,
        Task.run_bind_ok (Task.run_ofExcept _ _)]
      simp only
      rw [Task.run_bind_ok (Task.run_log _ _ _)]
      exact Task.ofExcept_bind_error_iff.mpr (.inl (Plan.of_eq_error_iff.mpr h))
    | stages hname hlabelled hplan h =>
      obtain ⟨name, hfull⟩ := Tool.fullName_eq_ok_iff.mpr hname
      rw [hfull, Task.run_bind_ok (Task.run_ofExcept _ _), hlabelled,
        Task.run_bind_ok (Task.run_ofExcept _ _)]
      simp only
      rw [Task.run_bind_ok (Task.run_log _ _ _), hplan, Task.run_bind_ok (Task.run_ofExcept _ _)]
      refine Task.bind_error_iff.mpr (.inl ((runAll_error_iff ?_).mpr h))
      exact isText_of_plan hname hlabelled hplan

/-! ### All operations on a project -/

/-- **Where the operations on a project end with a fault**, once its configuration is accepted: a
    run, building and launching.  Everywhere else they answer. -/
theorem operations_error_iff (haccepted : Accepted host w project located config)
    (hindex : IsNumber index) (e : Fault) :
    (∀ engine options, ((generate host project engine index options).run w).1 = .error e ↔
      ∃ loaded, loadedFrom located config engine index = .ok loaded ∧
        GenerateStumbles host w.store loaded options e) ∧
    (∀ dryRun limit, ((build host project index dryRun limit).run w).1 = .error e ↔
      ∃ loaded, loadedFrom located config .null index = .ok loaded ∧
        BuildStumbles host w.store loaded dryRun limit e) ∧
    ∀ dryRun limit, ((run host project index dryRun limit).run w).1 = .error e ↔
      ∃ loaded, loadedFrom located config .null index = .ok loaded ∧ dryRun = false ∧
        RunStumbles w.store (loaded.launchCommand host) (some loaded.located.folder.toText) limit
          e := by
  refine ⟨?_, ?_, ?_⟩
  · intro engine options
    exact generate_error_iff haccepted hindex
  · intro dryRun limit
    exact build_error_iff haccepted hindex
  · intro dryRun limit
    exact run_error_iff haccepted hindex

/-- A configuration with a quote among the flags of its target that is not closed. -/
def unclosedConfig : Text :=
  let before : Text := "\x7b\"version\":\"0.0.2\",\"EngineDir\":\"/engine\",\"Targets\":["
  before ++ "\x7b\"TargetName\":\"G\",\"UbtExtraFlags\":\"\\\"\"\x7d]\x7d"

/-- A project with that configuration. -/
def unclosedWorld : World :=
  ⟨⟨[], [(["p"], .folder), (["p", "G.uproject"], .file [] none),
    (["p", "UnrealNvim.json"], .file (Utf8.bytesOf unclosedConfig) none)]⟩, [], []⟩

def unclosedHost : Host := ⟨.linux, "/h", [], none, "/p"⟩

/-- The name and the flags of a target, where they are texts. -/
def nameAndFlags? (t : Target) : Option (Text × Text) :=
  match t.name, t.extraFlags with
  | .string name, .string flags => some (name, flags)
  | _, _ => none

theorem nameAndFlags?_eq_some {t : Target} {name flags : Text}
    (h : nameAndFlags? t = some (name, flags)) :
    t.name = .string name ∧ t.extraFlags = .string flags := by
  unfold nameAndFlags? at h
  split at h
  · rename_i name' flags' hname hflags
    obtain ⟨rfl, rfl⟩ := Prod.mk.inj (Option.some.inj h)
    exact ⟨hname, hflags⟩
  · cases h

/-- The flags are split when the command is made, also where it is only asked for. -/
theorem operations_error_unclosed : ∃ located config,
    Accepted unclosedHost unclosedWorld (.string "/p") located config ∧ IsNumber .null ∧
      ((build unclosedHost (.string "/p") .null true none).run unclosedWorld).1 =
        .error (.words .noClosingQuotation) := by
  have hfound : locate unclosedHost unclosedWorld.store (.string "/p") =
      .ok ⟨Path.ofText "/p/G.uproject", Path.ofText "/p", "G"⟩ := rfl
  obtain ⟨hread, hloaded⟩ :
      ((Config.load (Path.ofText "/p")).run unclosedWorld).1.isOk = true ∧
      ((load unclosedHost (.string "/p") .null .null).run unclosedWorld).1.toOption.bind
        (fun p => nameAndFlags? p.target) = some (("G" : Text), ("\"" : Text)) := by
    decide +kernel
  cases hconfig : ((Config.load (Path.ofText "/p")).run unclosedWorld).1 with
  | error e =>
    rw [hconfig] at hread
    cases hread
  | ok config =>
    have haccepted : Accepted unclosedHost unclosedWorld (.string "/p") _ config :=
      ⟨hfound, hconfig⟩
    obtain ⟨w₁, _, hload⟩ := run_load_accepted haccepted .null .null
    rw [hload] at hloaded
    cases hfrom : loadedFrom ⟨Path.ofText "/p/G.uproject", Path.ofText "/p", "G"⟩ config .null
        .null with
    | error e =>
      rw [hfrom] at hloaded
      cases hloaded
    | ok loaded =>
      rw [hfrom] at hloaded
      obtain ⟨hname, hflags⟩ := nameAndFlags?_eq_some hloaded
      obtain ⟨_, hbuild, _⟩ := operations_error_iff haccepted .usual (.words .noClosingQuotation)
      refine ⟨_, config, haccepted, .usual, (hbuild true none).mpr ⟨loaded, hfrom, ?_⟩⟩
      exact .flags ⟨_, hname⟩ (.words hflags rfl)

end Project

end ClangDb
