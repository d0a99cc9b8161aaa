import ClangDb.Proofs.Config.Reading
import ClangDb.Proofs.Database.Places
import ClangDb.Proofs.Generation.Sequencer
import ClangDb.Proofs.Project.Stages

/-! # What a run says of itself

    A run takes its stages in order, each on the files that the one before left,
    until one does not end with zero.  The answer says which it was, and it is a
    success exactly if there is none.

    The loop hands a stage to the sequencer, which stands within it, and carries
    the answer of the conversion along.  So the invariant of the loop is that the
    stages before have completed, and that the answer is a success exactly if the
    conversion is among them.

    Key theorems:
    - `runStages_spec`: the loop over the stages,
    - `generateWith_reports`: the answer of a run, and the database of the project.
-/

namespace ClangDb

namespace Project

open Sequencer (Proper within finished)

variable {tools : Tool.Runner} {host : Host} {p : Plan} {w w' : World} {s s' t : Store}
  {step : Step} {steps front : List Step} {done rest todo included : List Stage}
  {ended : RunEnd} {answer : Answer}

/-! ### Runs of stages -/

/-- Holds of steps that lead from a store to another, each on what the one before left. -/
inductive Leads : Store → List Step → Store → Prop where
  | nil (s : Store) : Leads s [] s
  | cons {step : Step} {steps : List Step} {s t : Store} :
      step.before = s → Leads step.after steps t → Leads s (step :: steps) t

theorem Leads.one (hbefore : step.before = s) (hafter : step.after = t) : Leads s [step] t := by
  subst hafter
  exact .cons hbefore (.nil _)

/-- Holds of steps that all ended with the return code zero. -/
def AllPassed (steps : List Step) : Prop := ∀ step ∈ steps, step.ended = .exited 0

theorem allPassed_nil : AllPassed [] := by
  intro step hstep
  cases hstep

theorem AllPassed.cons (hstep : step.ended = .exited 0) (h : AllPassed steps) :
    AllPassed (step :: steps) := by
  intro other hother
  rcases List.mem_cons.mp hother with rfl | hother
  · exact hstep
  · exact h other hother

/-- How a run goes on from where some stages have completed: the others complete too, or one of
    them fails, or its tool cannot be run. -/
inductive Ends (done : List Stage) : List Stage → List Step → RunEnd → Prop where
  | completed {steps : List Step} {answer : Answer} : AllPassed steps →
      (answer.success = true ↔ .process ∈ done ++ steps.map Step.stage) →
      Ends done (steps.map Step.stage) steps
        ⟨finished (done ++ steps.map Step.stage), .ok answer⟩
  | failed {front : List Step} {last : Step} {rest : List Stage} {code : Int} {answer : Answer} :
      AllPassed front → last.ended = .exited code → code ≠ 0 → answer.success = false →
      Ends done (front.map Step.stage ++ last.stage :: rest) (front ++ [last])
        ⟨within (done ++ front.map Step.stage) last.stage .failed rest, .ok answer⟩
  | stopped {front : List Step} {last : Step} {rest : List Stage} {e : ToolError} :
      AllPassed front → last.ended = .stopped e →
      Ends done (front.map Step.stage ++ last.stage :: rest) (front ++ [last])
        ⟨within (done ++ front.map Step.stage) last.stage .inProgress rest, .error e⟩

section Ends

variable {stage : Stage} (hstage : step.stage = stage)

include hstage

/-- A stage that completed comes before how the run goes on. -/
theorem Ends.cons (hstep : step.ended = .exited 0)
    (h : Ends (done ++ [stage]) todo steps ended) :
    Ends done (stage :: todo) (step :: steps) ended := by
  subst hstage
  cases h with
  | completed hpassed hanswer =>
    rw [List.append_assoc] at hanswer ⊢
    exact .completed (hpassed.cons hstep) hanswer
  | failed hpassed hlast hcode hanswer =>
    rw [List.append_assoc]
    exact .failed (hpassed.cons hstep) hlast hcode hanswer
  | stopped hpassed hlast =>
    rw [List.append_assoc]
    exact .stopped (hpassed.cons hstep) hlast

/-! The run ends with its next stage. -/

theorem Ends.last (hstep : step.ended = .exited 0)
    (hanswer : answer.success = true ↔ .process ∈ done ++ [stage]) :
    Ends done [stage] [step] ⟨finished (done ++ [stage]), .ok answer⟩ := by
  subst hstage
  exact .completed (allPassed_nil.cons hstep) hanswer

theorem Ends.failedAt {code : Int} (hstep : step.ended = .exited code) (hcode : code ≠ 0)
    (hanswer : answer.success = false) :
    Ends done (stage :: rest) [step] ⟨within done stage .failed rest, .ok answer⟩ := by
  subst hstage
  have hends : Ends done (([] : List Step).map Step.stage ++ step.stage :: rest) ([] ++ [step])
      ⟨within (done ++ ([] : List Step).map Step.stage) step.stage .failed rest, .ok answer⟩ :=
    .failed allPassed_nil hstep hcode hanswer
  simpa using hends

theorem Ends.stoppedAt {e : ToolError} (hstep : step.ended = .stopped e) :
    Ends done (stage :: rest) [step] ⟨within done stage .inProgress rest, .error e⟩ := by
  subst hstage
  have hends : Ends done (([] : List Step).map Step.stage ++ step.stage :: rest) ([] ++ [step])
      ⟨within (done ++ ([] : List Step).map Step.stage) step.stage .inProgress rest, .error e⟩ :=
    .stopped allPassed_nil hstep
  simpa using hends

end Ends

/-- One turn of the loop: the run ends with the stage, or the stage has ended with zero and the
    loop goes on within the next one. -/
theorem runStages_turn {fuel : Nat} {stage : Stage} (hproper : Proper (done ++ stage :: rest))
    (hanswer : answer.success = true ↔ .process ∈ done)
    (h : (runStages tools host p (fuel + 1) (within done stage .inProgress rest) stage answer).run
      w = (.ok ended, w')) :
    ∃ step, step.stage = stage ∧ step.before = w.store ∧ Takes tools host p step ∧
      ((step.after = w'.store ∧ Ends done (stage :: rest) [step] ended) ∨
        step.ended = .exited 0 ∧ ∃ next more answer' left, rest = next :: more ∧
          step.after = World.store left ∧
          (answer'.success = true ↔ .process ∈ done ++ [stage]) ∧
          (runStages tools host p fuel (within (done ++ [stage]) next .inProgress more) next
            answer').run left = (.ok ended, w')) := by
  obtain ⟨hdone, _, hfinal, _⟩ := hproper.split
  rw [runStages, Task.run_bind_ok (Task.run_outcome _ w)] at h
  cases hrun : (runStage tools host p stage answer).run w with
  | mk result left =>
    rw [hrun] at h
    rcases runStage_cases hfinal hrun with
      ⟨code, answer', rfl, htakes, hsuccess⟩ | ⟨e, rfl, htakes⟩ | ⟨e, rfl, hother⟩
    · refine ⟨_, rfl, rfl, htakes, ?_⟩
      simp only at h
      rw [Task.run_bind_ok (Task.run_report _ left)] at h
      by_cases hcode : code = 0
      · subst hcode
        have hanswer' : answer'.success = true ↔ .process ∈ done ++ [stage] := by
          rw [hsuccess, hanswer, List.mem_append, List.mem_singleton]
          constructor
          · intro hboth
            exact hboth.2.symm.imp_right Eq.symm
          · intro hor
            exact ⟨rfl, (hor.imp_right Eq.symm).symm⟩
        cases rest with
        | nil =>
          rw [Sequencer.notify_last hproper] at h
          obtain ⟨hended, rfl⟩ := Prod.mk.inj h
          obtain rfl := Except.ok.inj hended
          exact .inl ⟨rfl, .last rfl rfl hanswer'⟩
        | cons next more =>
          obtain ⟨records, hnotify⟩ := Sequencer.notify_next hproper
          rw [hnotify] at h
          refine .inr ⟨rfl, next, more, answer', _, rfl, ?_, hanswer', h⟩
          rfl
      · obtain ⟨records, hnotify⟩ := Sequencer.notify_failed hdone hcode
        rw [hnotify] at h
        obtain ⟨hended, rfl⟩ := Prod.mk.inj h
        obtain rfl := Except.ok.inj hended
        have hfailure : answer'.success = false := by
          rw [Bool.eq_false_iff]
          intro htrue
          exact hcode (hsuccess.mp htrue).1
        exact .inl ⟨rfl, .failedAt rfl rfl hcode hfailure⟩
    · -- the tool could not be run, and the sequencer stays within the stage
      obtain ⟨hended, rfl⟩ := Prod.mk.inj h
      obtain rfl := Except.ok.inj hended
      refine ⟨_, rfl, rfl, htakes, .inl ⟨rfl, ?_⟩⟩
      apply Ends.stoppedAt
      · rfl
      · rfl
    · -- another fault leaves no end of the run
      have hfail : (Task.fail e : Task RunEnd).run left = (.ok ended, w') := by
        cases e with
        | tool cause => exact absurd rfl (hother cause)
        | _ => exact h
      cases (Prod.mk.inj hfail).1

/-- **The loop over the stages.**  The run stands within a stage, and the answer is a success
    if the conversion has completed. -/
theorem runStages_spec {fuel : Nat} {stage : Stage} (hproper : Proper (done ++ stage :: rest))
    (hfuel : rest.length < fuel) (hanswer : answer.success = true ↔ .process ∈ done)
    (h : (runStages tools host p fuel (within done stage .inProgress rest) stage answer).run w =
      (.ok ended, w')) :
    ∃ steps, Leads w.store steps w'.store ∧ (∀ step ∈ steps, Takes tools host p step) ∧
      Ends done (stage :: rest) steps ended := by
  induction fuel generalizing done stage rest answer w with
  | zero => exact absurd hfuel (Nat.not_lt_zero _)
  | succ fuel ih =>
    obtain ⟨step, hstage, hbefore, htakes, hturn⟩ := runStages_turn hproper hanswer h
    rcases hturn with ⟨hafter, hends⟩ | ⟨hstep, next, more, answer', left, rfl, hafter, hanswer', hrun⟩
    · exact ⟨[step], .one hbefore hafter, List.forall_mem_singleton.mpr htakes, hends⟩
    · have hproper' : Proper ((done ++ [stage]) ++ next :: more) := by
        rwa [List.append_assoc]
      have hfuel' : more.length < fuel := Nat.lt_of_succ_lt_succ hfuel
      obtain ⟨steps, hleads, hall, hends⟩ := ih hproper' hfuel' hanswer' hrun
      refine ⟨step :: steps, .cons hbefore ?_, ?_, hends.cons hstage hstep⟩
      · rw [hafter]
        exact hleads
      · exact List.forall_mem_cons.mpr ⟨htakes, hall⟩

/-- A run starts with the first of its stages. -/
theorem runAll_spec (h : (runAll tools host p).run w = (.ok ended, w')) :
    ∃ steps, Leads w.store steps w'.store ∧ (∀ step ∈ steps, Takes tools host p step) ∧
      Ends [] (Sequencer.ofParts (!p.options.skipDatabase) p.options.headers).stages steps
        ended := by
  have hproper := Sequencer.proper_ofParts (!p.options.skipDatabase) p.options.headers
  have hidle : Sequencer.ofParts (!p.options.skipDatabase) p.options.headers =
      ⟨(Sequencer.ofParts (!p.options.skipDatabase) p.options.headers).stages, [], none⟩ := rfl
  unfold runAll at h
  generalize (Sequencer.ofParts (!p.options.skipDatabase) p.options.headers).stages = stages
    at hproper hidle ⊢
  rw [hidle] at h
  cases stages with
  | nil => exact absurd rfl hproper.ne_nil
  | cons stage rest =>
    obtain ⟨records, hstart⟩ := Sequencer.start_idle hproper
    simp only [hstart] at h
    rw [Task.run_bind_ok (Task.run_report _ w)] at h
    -- no stage has completed, and the answer that the loop begins with is no success
    have hanswer : notRun.success = true ↔ Stage.process ∈ [] := by decide
    have hspec := runStages_spec hproper (Nat.lt_succ_self _) hanswer h
    exact hspec

/-! ### What a run answers -/

/-- Loading a project changes no file. -/
theorem store_load {project engine index : Json} {loaded : Loaded}
    (h : (load host project engine index).run w = (.ok loaded, w')) : w'.store = w.store := by
  unfold load at h
  obtain ⟨place, _, hplace, h⟩ := Task.bind_ok h
  obtain ⟨_, rfl⟩ := Prod.mk.inj hplace
  obtain ⟨config, w₂, hconfig, h⟩ := Task.bind_ok h
  have hstore : w₂.store = w.store := by
    rw [Config.run_load] at hconfig
    split at hconfig
    · obtain ⟨_, rfl⟩ := Prod.mk.inj hconfig
      rfl
    · cases (Prod.mk.inj hconfig).1
  rw [← hstore]
  generalize (if engine.isTrue then Path.normalize engine.plain else config.engineDir) = dir at h
  simp only at h
  cases hempty : dir.isEmpty with
  | true =>
    rw [hempty] at h
    cases (Prod.mk.inj h).1
  | false =>
    rw [hempty] at h
    obtain ⟨target, _, h⟩ := Task.ofExcept_bind_ok h
    obtain ⟨_, rfl⟩ := Prod.mk.inj h
    rfl

/-- How an answer is made of the end of a run. -/
def RunEnd.Answers (ended : RunEnd) (label : Json) (answer : Answer) : Prop :=
  match ended.answer with
  | .error e => answer = .failure e.message [("status", .string ended.sequencer.status)]
  | .ok a => answer = (a.withDetail "status" (.string ended.sequencer.status)).withDetail
      "target" label

/-- A project that is loaded is run, and the answer is made of the end of the run. -/
theorem generateWith_spec {project engine index : Json} {options : GenerateOptions}
    {loaded : Loaded} {w₀ : World}
    (hload : (load host project engine index).run w = (.ok loaded, w₀))
    (h : (generateWith tools host project engine index options).run w = (.ok answer, w')) :
    ∃ label target plan ended w₁, loaded.target.labelled = .ok (label, target) ∧
      Plan.of host { loaded with target := target } options = .ok plan ∧
      (runAll tools host plan).run w₁ = (.ok ended, w') ∧ w₁.store = w₀.store ∧
      ended.Answers label answer := by
  have hfailure : (load host project engine index).orFailure.run w = (.ok (.ok loaded), w₀) := by
    unfold Task.orFailure
    rw [Task.run_bind_ok (Task.run_outcome _ w), hload]
    rfl
  unfold generateWith at h
  rw [Task.run_bind_ok hfailure] at h
  simp only at h
  rw [Task.run_bind_ok (Task.run_log _ _ _), Task.run_bind_ok (Task.run_log _ _ _)] at h
  obtain ⟨name, _, h⟩ := Task.ofExcept_bind_ok h
  obtain ⟨⟨label, target⟩, hlabelled, h⟩ := Task.ofExcept_bind_ok h
  simp only at h
  rw [Task.run_bind_ok (Task.run_log _ _ _)] at h
  obtain ⟨plan, hplan, h⟩ := Task.ofExcept_bind_ok h
  obtain ⟨ended, left, hrun, h⟩ := Task.bind_ok h
  have hanswer : left = w' ∧ ended.Answers label answer := by
    unfold RunEnd.Answers
    cases hend : ended.answer with
    | error e =>
      rw [hend] at h
      obtain ⟨hended, rfl⟩ := Prod.mk.inj h
      exact ⟨rfl, (Except.ok.inj hended).symm⟩
    | ok a =>
      rw [hend] at h
      obtain ⟨hended, rfl⟩ := Prod.mk.inj h
      exact ⟨rfl, (Except.ok.inj hended).symm⟩
  obtain ⟨rfl, hanswer⟩ := hanswer
  exact ⟨label, target, plan, ended, _, hlabelled, hplan, hrun, rfl, hanswer⟩

/-! ### The status of an answer -/

theorem member?_setMember_self (key : Text) (value : Json) (members : List (Text × Json)) :
    Json.member? key (Json.setMember key value members) = some value := by
  induction members with
  | nil => exact if_pos rfl
  | cons member members ih =>
    obtain ⟨k, v⟩ := member
    unfold Json.setMember
    by_cases hk : k = key
    · rw [if_pos hk]
      exact if_pos hk
    · rw [if_neg hk]
      exact (if_neg hk).trans ih

theorem member?_setMember_ne {key other : Text} (h : other ≠ key) (value : Json)
    (members : List (Text × Json)) :
    Json.member? key (Json.setMember other value members) = Json.member? key members := by
  induction members with
  | nil => exact if_neg h
  | cons member members ih =>
    obtain ⟨k, v⟩ := member
    unfold Json.setMember
    by_cases hk : k = other
    · have hkey : ¬ k = key := by rwa [hk]
      rw [if_pos hk]
      exact (if_neg hkey).trans (if_neg hkey).symm
    · rw [if_neg hk]
      show (if k = key then some v else Json.member? key (Json.setMember other value members)) = _
      rw [ih]
      rfl

/-- The status that an answer states. -/
def status? (answer : Answer) : Option Json := Json.member? "status" answer.details

theorem RunEnd.Answers.status {label : Json} (h : ended.Answers label answer) :
    status? answer = some (.string ended.sequencer.status) := by
  unfold RunEnd.Answers at h
  cases hend : ended.answer with
  | error e =>
    rw [hend] at h
    rw [h]
    rfl
  | ok a =>
    rw [hend] at h
    rw [h]
    exact (member?_setMember_ne (by decide) label _).trans (member?_setMember_self _ _ _)

theorem RunEnd.Answers.success {q : Sequencer} {a : Answer} {label : Json}
    (h : RunEnd.Answers ⟨q, .ok a⟩ label answer) : answer.success = a.success := by
  have hmade : answer = (a.withDetail "status" (.string q.status)).withDetail "target" label := h
  rw [hmade]
  rfl

/-! ### What an answer says -/

/-- What an answer says of a run over stages. -/
structure Faithful (included : List Stage) (steps : List Step) (answer : Answer) : Prop where
  /-- The stages that were run are the first ones, in their order. -/
  order : steps.map Step.stage <+: included
  success_iff : answer.success = true ↔ status? answer = some (.string "Completed")
  completed_iff : status? answer = some (.string "Completed") ↔
    steps.map Step.stage = included ∧ AllPassed steps
  /-- A run does not stop after a stage that ended with zero. -/
  whole : AllPassed steps → steps.map Step.stage = included
  /-- With a stage that ended otherwise the run ends. -/
  failed : ∀ step ∈ steps, ∀ code, step.ended = .exited code → code ≠ 0 →
    answer.success = false ∧ status? answer = some (.string ("Failed at " ++ step.stage.name)) ∧
      steps.getLast? = some step
  stopped : ∀ step ∈ steps, ∀ e, step.ended = .stopped e →
    answer.success = false ∧ answer.message = e.message ∧ status? answer =
      some (.string (step.stage.name ++ " -> " ++ Progress.inProgress.name)) ∧
      steps.getLast? = some step

/-- What the status says of a stage that did not end with zero. -/
def StageEnd.status (stage : Stage) : StageEnd → Text
  | .exited _ => "Failed at " ++ stage.name
  | .stopped _ => stage.name ++ " -> " ++ Progress.inProgress.name

theorem StageEnd.status_ne (stage : Stage) (e : StageEnd) :
    e.status stage ≠ Text.ofString "Completed" := by
  cases e with
  | exited code => exact (Sequencer.failed_ne stage).1
  | stopped e => exact (Sequencer.running_ne stage).1

/-- An answer is faithful if it tells of the last stage, which did not end with zero. -/
theorem faithful_of_last {last : Step} (hfront : AllPassed front) (hlast : last.ended ≠ .exited 0)
    (hsuccess : answer.success = false)
    (hstatus : status? answer = some (.string (last.ended.status last.stage)))
    (hmessage : ∀ e, last.ended = .stopped e → answer.message = e.message) :
    Faithful (front.map Step.stage ++ last.stage :: rest) (front ++ [last]) answer := by
  have hcompleted : status? answer ≠ some (.string "Completed") := by
    rw [hstatus]
    intro heq
    exact StageEnd.status_ne last.stage last.ended (Json.string.inj (Option.some.inj heq))
  have hpassed : ¬ AllPassed (front ++ [last]) := by
    intro hall
    exact hlast (hall last (List.mem_append_right _ List.mem_cons_self))
  -- a stage that did not end with zero is the last one
  have hcut : ∀ step ∈ front ++ [last], step.ended ≠ .exited 0 → step = last := by
    intro step hstep hne
    rcases List.mem_append.mp hstep with hmem | hmem
    · exact absurd (hfront step hmem) hne
    · exact List.mem_singleton.mp hmem
  have hend : (front ++ [last]).getLast? = some last := List.getLast?_concat
  constructor
  · exact ⟨rest, by simp⟩
  · exact iff_of_false (by simp [hsuccess]) hcompleted
  · exact iff_of_false hcompleted fun hboth => hpassed hboth.2
  · intro hall
    exact absurd hall hpassed
  · intro step hstep code hcode hne
    have hnot : step.ended ≠ .exited 0 := by
      rw [hcode]
      intro heq
      exact hne (StageEnd.exited.inj heq)
    obtain rfl := hcut step hstep hnot
    rw [hcode] at hstatus
    exact ⟨hsuccess, hstatus, hend⟩
  · intro step hstep e he
    have hnot : step.ended ≠ .exited 0 := by
      rw [he]
      intro heq
      cases heq
    obtain rfl := hcut step hstep hnot
    have hsays := hmessage e he
    rw [he] at hstatus
    exact ⟨hsuccess, hsays, hstatus, hend⟩

/-- **The answer made of the end of a run is faithful.** -/
theorem Ends.faithful {label : Json} (hproper : Proper included) (hprocess : .process ∈ included)
    (h : Ends [] included steps ended) (hanswer : ended.Answers label answer) :
    Faithful included steps answer := by
  have hstatus := hanswer.status
  cases h with
  | @completed _ a hpassed hsuccess =>
    -- the answer is that of the conversion, which is one of the stages
    have hmade : answer.success = a.success := hanswer.success
    have hcompleted : status? answer = some (.string "Completed") := by
      rw [hstatus]
      exact congrArg (some ∘ Json.string) (Sequencer.status_finished hproper)
    have htrue : answer.success = true := by
      rw [hmade]
      exact hsuccess.mpr hprocess
    constructor
    · exact List.prefix_refl _
    · exact iff_of_true htrue hcompleted
    · exact iff_of_true hcompleted ⟨rfl, hpassed⟩
    · intro _
      rfl
    · intro step hstep code hcode hne
      rw [hpassed step hstep] at hcode
      exact absurd (StageEnd.exited.inj hcode).symm hne
    · intro step hstep e he
      rw [hpassed step hstep] at he
      cases he
  | @failed front last rest code a hfront hlast hcode hfailure =>
    have hmade : answer.success = a.success := hanswer.success
    have hne : last.ended ≠ .exited 0 := by
      rw [hlast]
      intro heq
      exact hcode (StageEnd.exited.inj heq)
    have hsays : status? answer = some (.string (last.ended.status last.stage)) := by
      rw [hstatus, hlast]
      exact congrArg (some ∘ Json.string) (Sequencer.status_within hproper (.inr rfl))
    refine faithful_of_last hfront hne (hmade.trans hfailure) hsays ?_
    intro e he
    rw [hlast] at he
    cases he
  | @stopped front last rest e hfront hlast =>
    have hmade : answer.success = false := congrArg Answer.success hanswer
    have hne : last.ended ≠ .exited 0 := by
      rw [hlast]
      intro heq
      cases heq
    have hsays : status? answer = some (.string (last.ended.status last.stage)) := by
      rw [hstatus, hlast]
      exact congrArg (some ∘ Json.string) (Sequencer.status_within hproper (.inl rfl))
    refine faithful_of_last hfront hne hmade hsays ?_
    intro cause he
    rw [hlast] at he
    obtain rfl := StageEnd.stopped.inj he
    exact congrArg Answer.message hanswer

/-- All stages but the last ended with zero. -/
theorem Ends.passed (h : Ends done todo steps ended) :
    ∀ step ∈ steps.dropLast, step.ended = .exited 0 := by
  intro step hstep
  cases h with
  | completed hpassed _ => exact hpassed step (List.mem_of_mem_dropLast hstep)
  | failed hfront _ _ _ =>
    rw [List.dropLast_concat] at hstep
    exact hfront step hstep
  | stopped hfront _ =>
    rw [List.dropLast_concat] at hstep
    exact hfront step hstep

/-! ### The database of the project -/

/-- The place of a database is that of no response file. -/
theorem not_isResponseFile_of_database {folder : Path} {q : Place}
    (h : s.locate (folder.join databaseName).toText = .ok q) : ¬ Database.IsResponseFile q := by
  obtain ⟨front, hfront⟩ := leadsDown_databaseName.exists_toText folder
  rw [hfront] at h
  obtain ⟨above, last, rfl⟩ := Store.locate_append (by decide) (by decide) h
  intro hresponse
  obtain ⟨above', name, heq⟩ := hresponse
  have hnames := (List.append_inj' heq rfl).2
  have hlast := congrArg List.getLast? (List.cons.inj hnames).1
  rw [List.getLast?_append, List.getLast?_append] at hlast
  have hletter : CodePoint.char 'n' = CodePoint.char 'p' := Option.some.inj hlast
  exact absurd hletter (by decide)

/-- What the steps of a run do to the database of the project, beside what the tools do. -/
structure SparesDatabase (host : Host) (p : Plan) (steps : List Step) : Prop where
  /-- It is written only after the build tool has ended with zero, or was not asked for. -/
  converted : ∀ step ∈ steps, step.stage = .process → p.options.skipDatabase = true ∨
    ∃ first ∈ steps, first.stage = .database ∧ first.ended = .exited 0
  /-- A pass that is given up leaves what stands at its place.  Where nothing stood, nothing
      does or there is a folder on the way to the response files. -/
  givenUp : ∀ step ∈ steps, step.stage = .process → ∀ e,
    (Database.passBy p.options.workers p.options.turns step.before (p.request host)).outcome =
      .error e → ∀ q, step.before.locate p.output = .ok q →
        step.after.entry? q = step.before.entry? q ∨
          step.before.entry? q = none ∧ step.after.entry? q = some .folder ∧
            step.after.OnWay (p.request host).options.outputDir q

/-- A plan keeps the options and puts the database into the folder of the project. -/
theorem Plan.of_spec {loaded : Loaded} {options : GenerateOptions}
    (h : Plan.of host loaded options = .ok p) : p.options = options ∧
      p.output = (loaded.located.folder.join databaseName).toText := by
  unfold Plan.of at h
  cases hfolder : loaded.target.responseFileFolder loaded.located.folder with
  | error e =>
    rw [hfolder] at h
    cases h
  | ok folder =>
    rw [hfolder] at h
    obtain rfl := Except.ok.inj h
    exact ⟨rfl, rfl⟩

theorem process_mem_stages (includeDatabase includeHeaders : Bool) :
    Stage.process ∈ (Sequencer.ofParts includeDatabase includeHeaders).stages := by
  cases includeDatabase <;> cases includeHeaders <;> decide

/-- Where the build tool is asked for, it has ended with zero before the conversion. -/
theorem exists_database {includeHeaders : Bool}
    (horder : steps.map Step.stage <+: (Sequencer.ofParts true includeHeaders).stages)
    (hpassed : ∀ step ∈ steps.dropLast, step.ended = .exited 0) (hstep : step ∈ steps)
    (hstage : step.stage = .process) :
    ∃ first ∈ steps, first.stage = .database ∧ first.ended = .exited 0 := by
  cases steps with
  | nil => cases hstep
  | cons first more =>
    obtain ⟨hfirst, _⟩ := List.cons_prefix_cons.mp horder
    -- the conversion is not the first stage, so there is one before it
    have hmore : step ∈ more := by
      rcases List.mem_cons.mp hstep with rfl | hmem
      · rw [hstage] at hfirst
        cases hfirst
      · exact hmem
    have hinit : first ∈ (first :: more).dropLast := by
      cases more with
      | nil => cases hmore
      | cons next more => exact List.mem_cons_self
    exact ⟨first, List.mem_cons_self, hfirst, hpassed first hinit⟩

/-- A conversion whose pass is given up leaves the files as the pass left them. -/
theorem Takes.store_of_error {e : Database.PassError} (h : Takes tools host p step)
    (hstage : step.stage = .process)
    (he : (Database.passBy p.options.workers p.options.turns step.before
      (p.request host)).outcome = .error e) :
    step.after = (Database.passBy p.options.workers p.options.turns step.before
      (p.request host)).store := by
  cases h with
  | exited hcommand _ =>
    simp only at hstage
    rw [hstage] at hcommand
    cases hcommand
  | stopped hcommand _ =>
    simp only at hstage
    rw [hstage] at hcommand
    cases hcommand
  | converted hconverts =>
    cases hconverts with
    | givenUp _ => rfl
    | unwritten _ _ => rfl
    | written hok _ =>
      rw [hok] at he
      cases he

/-- **What a run answers, and what it does to the database of the project**, for all tools and
    however they end. -/
theorem generateWith_reports {project engine index : Json} {options : GenerateOptions}
    {loaded : Loaded} {w₀ : World}
    (hload : (load host project engine index).run w = (.ok loaded, w₀))
    (h : (generateWith tools host project engine index options).run w = (.ok answer, w')) :
    ∃ label target plan steps, loaded.target.labelled = .ok (label, target) ∧
      Plan.of host { loaded with target := target } options = .ok plan ∧
      plan.output = (loaded.located.folder.join databaseName).toText ∧
      Leads w.store steps w'.store ∧ (∀ step ∈ steps, Takes tools host plan step) ∧
      Faithful (Sequencer.ofParts (!options.skipDatabase) options.headers).stages steps answer ∧
      SparesDatabase host plan steps := by
  obtain ⟨label, target, plan, ended, w₁, hlabelled, hplan, hrun, hstore, hanswer⟩ :=
    generateWith_spec hload h
  obtain ⟨steps, hleads, htakes, hends⟩ := runAll_spec hrun
  obtain ⟨hoptions, houtput⟩ := Plan.of_spec hplan
  rw [hoptions] at hends
  have hproper := Sequencer.proper_ofParts (!options.skipDatabase) options.headers
  have hprocess := process_mem_stages (!options.skipDatabase) options.headers
  have hfaithful := hends.faithful hproper hprocess hanswer
  refine ⟨label, target, plan, steps, hlabelled, hplan, houtput, ?_, htakes, hfaithful, ?_, ?_⟩
  · rw [← store_load hload, ← hstore]
    exact hleads
  · intro step hstep hstage
    rw [hoptions]
    by_cases hskip : options.skipDatabase = true
    · exact .inl hskip
    · right
      have horder := hfaithful.order
      rw [Bool.eq_false_iff.mpr hskip] at horder
      exact exists_database horder hends.passed hstep hstage
  · intro step hstep hstage e he q hq
    rw [houtput] at hq
    rw [(htakes step hstep).store_of_error hstage he]
    exact Database.passBy_place _ _ _ _ (not_isResponseFile_of_database hq)

/-! ### A run that is given up -/

/-- A configuration that names the database of the project as the platform of its target, and has
    a configuration with a long name. -/
def misplacedConfig : Text :=
  let before : Text :=
    "\x7b\"version\":\"0.0.2\",\"EngineDir\":\"/e\",\"Targets\":[\x7b\"TargetName\":\"G\","
  let platform : Text :=
    "\"PlatformName\":\"../../compile_commands.json\",\"Configuration\":\""
  before ++ platform ++ List.replicate 256 (CodePoint.char 'b') ++ "\"\x7d]\x7d"

/-- A project with that configuration, and an engine with a database. -/
def misplacedWorld : World where
  store := ⟨[], [(["p"], .folder), (["p", "Intermediate"], .folder),
    (["p", "Intermediate", "clangRsp"], .folder), (["p", "G.uproject"], .file [] none),
    (["p", "UnrealNvim.json"], .file (Utf8.bytesOf misplacedConfig) none), (["e"], .folder),
    (["e", "compile_commands.json"], .file (Utf8.bytesOf "[]\n") none)]⟩
  records := []
  calls := []

def misplacedHost : Host := ⟨.linux, "/h", [], none, "/p"⟩

/-- The build tool is not asked for, nor is the header tool. -/
def misplacedOptions : GenerateOptions := ⟨false, false, true, false, none, 1, []⟩

/-- The conversion is given up because of the long name, and the folder that was made on the way
    to it is where the database of the project would be. -/
theorem generateWith_reports_sample :
    ∃ loaded w₀ answer w' plan steps,
      (load misplacedHost (.string "/p") .null .null).run misplacedWorld = (.ok loaded, w₀) ∧
      (generate misplacedHost (.string "/p") .null .null misplacedOptions).run misplacedWorld =
        (.ok answer, w') ∧
      Leads misplacedWorld.store steps w'.store ∧ Faithful [.process] steps answer ∧
      SparesDatabase misplacedHost plan steps ∧ answer.success = false ∧
      Store.entry? misplacedWorld.store ["p", "compile_commands.json"] = none ∧
      Store.entry? w'.store ["p", "compile_commands.json"] = some .folder := by
  -- both runs are evaluated once
  obtain ⟨hloaded, hsuccess, hfolder⟩ :
      ((load misplacedHost (.string "/p") .null .null).run misplacedWorld).1.isOk = true ∧
      ((generate misplacedHost (.string "/p") .null .null misplacedOptions).run
        misplacedWorld).1.toOption.map Answer.success = some false ∧
      Store.entry? ((generate misplacedHost (.string "/p") .null .null misplacedOptions).run
        misplacedWorld).2.store ["p", "compile_commands.json"] = some .folder := by
    decide +kernel
  cases hload : (load misplacedHost (.string "/p") .null .null).run misplacedWorld with
  | mk result w₀ =>
    cases hrun : (generate misplacedHost (.string "/p") .null .null misplacedOptions).run
        misplacedWorld with
    | mk outcome w' =>
      rw [hload] at hloaded
      rw [hrun] at hsuccess hfolder
      cases result with
      | error e => cases hloaded
      | ok loaded =>
        cases outcome with
        | error e => cases hsuccess
        | ok answer =>
          obtain ⟨_, _, plan, steps, _, _, _, hleads, _, hfaithful, hspares⟩ :=
            generateWith_reports hload hrun
          exact ⟨loaded, w₀, answer, w', plan, steps, rfl, rfl, hleads, hfaithful, hspares,
            Option.some.inj hsuccess, by decide +kernel, hfolder⟩

end Project

end ClangDb
