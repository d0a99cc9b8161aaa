import ClangDb.Project.Launch
import ClangDb.Proofs.Project.Answer
import ClangDb.Proofs.Tool.Run

/-! # Where building and launching a project end with a fault

    A project whose configuration is accepted is loaded, or what is wrong with
    the engine or the number of the target is answered.  What follows is done with
    the values of the target, and nobody has looked at them before: the command is
    made of them, shown, and run unless it is only asked for.

    A tool that cannot be run is answered, and so is one that fails.

    Key theorems:
    - `run_load_accepted`: loading a project whose configuration is accepted,
    - `dispatch_error_iff`: showing and running a command,
    - `build_error_iff`, `run_error_iff`: the two operations.
-/

namespace ClangDb

namespace Project

open Tool (IsText NameStumbles FlagsStumble Unshown RunStumbles NotOfTool)

variable {host : Host} {w : World} {located : Located} {config : Config} {loaded : Loaded}
  {project engine index : Json} {dryRun : Bool} {limit : Option Seconds} {e : Fault}

/-! ### Loading -/

/-- Holds of a project that is found and whose configuration is accepted. -/
structure Accepted (host : Host) (w : World) (project : Json) (located : Located)
    (config : Config) : Prop where
  found : locate host w.store project = .ok located
  read : ((Config.load located.folder).run w).1 = .ok config

/-- The number of a target that is given as an integer or not at all. -/
inductive IsNumber : Json → Prop where
  | usual : IsNumber .null
  | int {n : Int} : IsNumber (.int n)

/-- What is loaded of a project with a configuration. -/
def loadedFrom (located : Located) (config : Config) (engine index : Json) : Except Fault Loaded :=
  let engineDir := if engine.isTrue then Path.normalize engine.plain else config.engineDir
  if engineDir.isEmpty then .error (.config .noEngineDir)
  else (config.target index).map fun target => ⟨located, config, engineDir, target⟩

/-- **A project whose configuration is accepted is loaded** from it, and the files are left. -/
theorem run_load_accepted (haccepted : Accepted host w project located config)
    (engine index : Json) : ∃ w₁, w₁.store = w.store ∧
      (load host project engine index).run w = (loadedFrom located config engine index, w₁) := by
  have hfound : (Project.located host project).run w = (.ok located, w) := by
    unfold Project.located
    rw [Task.run_bind_ok (Task.run_store w), Task.run_ofExcept, haccepted.found]
  obtain ⟨w₁, hstore, hload⟩ : ∃ w₁, w₁.store = w.store ∧
      (Config.load located.folder).run w = (.ok config, w₁) := by
    have hread := haccepted.read
    rw [Config.run_load] at hread ⊢
    cases hin : Config.inStore w.store (Config.pathIn located.folder).toText with
    | ok c =>
      rw [hin] at hread
      obtain rfl := Except.ok.inj hread
      exact ⟨_, by rfl, rfl⟩
    | error e =>
      rw [hin] at hread
      cases hread
  refine ⟨w₁, hstore, ?_⟩
  unfold load loadedFrom
  rw [Task.run_bind_ok hfound, Task.run_bind_ok hload]
  generalize (if engine.isTrue then Path.normalize engine.plain else config.engineDir) = dir
  cases hempty : dir.isEmpty with
  | true => simp only [hempty, if_true, Task.run_bind, Task.run_fail]
  | false =>
    simp only [hempty, Bool.false_eq_true, if_false, Task.run_bind, Task.run_ofExcept]
    cases config.target index <;> rfl

/-- What is amiss then is answered. -/
theorem isInvalidValue_of_loadedFrom (hindex : IsNumber index)
    (h : loadedFrom located config engine index = .error e) : e.isInvalidValue = true := by
  have htarget : ∀ e', config.target index = .error e' → e'.isInvalidValue = true := by
    have hnumber : ∀ n e', config.targetAt (.int n) = .error e' → e'.isInvalidValue = true := by
      intro n e' he
      simp only [Config.targetAt] at he
      split at he
      · obtain rfl := Except.error.inj he
        rfl
      · split at he
        · cases he
        · obtain rfl := Except.error.inj he
          rfl
    cases hindex with
    | usual => exact hnumber _
    | int => exact hnumber _
  unfold loadedFrom at h
  generalize (if engine.isTrue then Path.normalize engine.plain else config.engineDir) = dir at h
  simp only at h
  split at h
  · obtain rfl := Except.error.inj h
    rfl
  · cases hpicked : config.target index with
    | error e' =>
      rw [hpicked] at h
      obtain rfl := Except.error.inj h
      exact htarget _ hpicked
    | ok target =>
      rw [hpicked] at h
      cases h

/-- An operation on a project whose configuration is accepted ends with a fault only after the
    project is loaded. -/
theorem accepted_error_iff (haccepted : Accepted host w project located config)
    (hindex : IsNumber index) {f : Except Answer Loaded → Task Answer}
    (hanswer : ∀ answer, f (.error answer) = pure answer) {stumbles : Loaded → Prop}
    (hf : ∀ loaded w₁, w₁.store = w.store →
      (((f (.ok loaded)).run w₁).1 = .error e ↔ stumbles loaded)) :
    (((load host project engine index).orFailure >>= f).run w).1 = .error e ↔
      ∃ loaded, loadedFrom located config engine index = .ok loaded ∧ stumbles loaded := by
  obtain ⟨w₁, hstore, hload⟩ := run_load_accepted haccepted engine index
  rw [Task.orFailure_bind_error_iff hanswer, hload]
  constructor
  · rintro (⟨h, hinvalid⟩ | ⟨loaded, w₂, h, he⟩)
    · -- what is wrong with the engine or the number has an answer
      rw [isInvalidValue_of_loadedFrom hindex h] at hinvalid
      cases hinvalid
    · obtain ⟨hloaded, rfl⟩ := Prod.mk.inj h
      exact ⟨loaded, hloaded, (hf loaded w₁ hstore).mp he⟩
  · rintro ⟨loaded, hloaded, h⟩
    exact .inr ⟨loaded, w₁, by rw [hloaded], (hf loaded w₁ hstore).mpr h⟩

/-! ### Dispatching -/

/-- **Where showing or running a command ends with a fault.** -/
theorem dispatch_error_iff {command : List Json} {activity : Text} {folder : Path} :
    ((dispatch command activity dryRun folder limit).run w).1 = .error e ↔
      if dryRun then Unshown command e
      else RunStumbles w.store command (some folder.toText) limit e := by
  unfold dispatch
  simp only [Task.run_bind, Task.run_ofExcept]
  cases hshown : Tool.shownCommand command with
  | error e' =>
    have hunshown : Unshown command e ↔ e = e' := by
      rw [← Tool.shownCommand_eq_error_iff, hshown, error_eq_error_iff]
    -- the command is shown before it is looked whether it is to be run
    rw [Tool.runStumbles_of_unshown hshown, hunshown, ite_self]
    exact error_eq_error_iff
  | ok shown =>
    have hunshown : ¬ Unshown command e := by
      intro h
      cases hshown.symm.trans (Tool.shownCommand_eq_error_iff.mpr h)
    cases dryRun with
    | true => exact iff_of_false (fun h => by cases h) hunshown
    | false =>
      simp only [Bool.false_eq_true, if_false, Task.run_bind, Task.run_outcome]
      rw [← Tool.run_stumbles_iff]
      rcases (Tool.run command (some folder.toText) limit).run w with ⟨e' | ran, w₁⟩
      · cases e' with
        | tool cause =>
          refine iff_of_false (fun h => by cases h) ?_
          rintro ⟨h, htool⟩
          exact htool cause (Except.error.inj h).symm
        | _ => exact error_passed_iff (by simp [NotOfTool])
      · refine iff_of_false ?_ (fun h => by cases h.1)
        simp only
        split <;> exact fun h => by cases h

/-! ### Building and launching -/

/-- The command that builds the target of a project. -/
def Loaded.buildCommand (host : Host) (p : Loaded) : Except Fault (List Json) :=
  Tool.buildCommand (Tool.buildScript host.platform p.engineDir) p.located.file.toText p.target

/-- Holds of a project that building ends with a fault for, and of the fault. -/
inductive BuildStumbles (host : Host) (s : Store) (p : Loaded) (dryRun : Bool)
    (limit : Option Seconds) : Fault → Prop where
  | name {e : Fault} : NameStumbles p.target e → BuildStumbles host s p dryRun limit e
  | flags {e : Fault} : IsText p.target.name → FlagsStumble p.target e →
      BuildStumbles host s p dryRun limit e
  | shown {command : List Json} {e : Fault} : dryRun = true → p.buildCommand host = .ok command →
      Unshown command e → BuildStumbles host s p dryRun limit e
  | run {command : List Json} {e : Fault} : dryRun = false → p.buildCommand host = .ok command →
      RunStumbles s command (some p.located.folder.toText) limit e →
      BuildStumbles host s p dryRun limit e

/-- The command that launches the target of a project. -/
def Loaded.launchCommand (host : Host) (p : Loaded) : List Json :=
  Tool.runCommand host.platform p.engineDir (Path.normalize p.located.folder.toText)
    p.located.name p.located.file.toText p.target

/-- A command that launches a project holds texts, whatever the target holds. -/
theorem isText_of_mem_launchCommand (p : Loaded) : ∀ v ∈ p.launchCommand host, IsText v := by
  intro v hv
  unfold Loaded.launchCommand Tool.runCommand at hv
  split at hv
  · rcases List.mem_cons.mp hv with rfl | hv
    · exact ⟨_, rfl⟩
    · exact ⟨_, List.mem_singleton.mp hv⟩
  · exact ⟨_, List.mem_singleton.mp hv⟩

/-- **Where building a project ends with a fault.** -/
theorem build_error_iff (haccepted : Accepted host w project located config)
    (hindex : IsNumber index) : ((build host project index dryRun limit).run w).1 = .error e ↔
      ∃ loaded, loadedFrom located config .null index = .ok loaded ∧
        BuildStumbles host w.store loaded dryRun limit e := by
  refine accepted_error_iff haccepted hindex (fun _ => rfl) ?_
  intro p w₁ hstore
  refine Task.bind_error_iff.trans ?_
  rw [Task.run_ofExcept, ← hstore]
  constructor
  · rintro (h | ⟨command, w₂, hmade, h⟩)
    · rcases Tool.buildCommand_eq_error_iff.mp h with h | ⟨hname, h⟩
      · exact .name h
      · exact .flags hname h
    · obtain ⟨hcommand, rfl⟩ := Prod.mk.inj hmade
      have hends := dispatch_error_iff.mp h
      cases dryRun with
      | true => exact .shown rfl hcommand hends
      | false => exact .run rfl hcommand hends
  · intro h
    cases h with
    | name h => exact .inl (Tool.buildCommand_eq_error_iff.mpr (.inl h))
    | flags hname h => exact .inl (Tool.buildCommand_eq_error_iff.mpr (.inr ⟨hname, h⟩))
    | shown hdry hcommand h =>
      refine .inr ⟨_, w₁, Prod.ext hcommand rfl, dispatch_error_iff.mpr ?_⟩
      rwa [if_pos hdry]
    | run hdry hcommand h =>
      refine .inr ⟨_, w₁, Prod.ext hcommand rfl, dispatch_error_iff.mpr ?_⟩
      rwa [hdry, if_neg Bool.false_ne_true]

/-- **Where launching a project ends with a fault.**  A command that is only asked for is always
    shown. -/
theorem run_error_iff (haccepted : Accepted host w project located config)
    (hindex : IsNumber index) : ((run host project index dryRun limit).run w).1 = .error e ↔
      ∃ loaded, loadedFrom located config .null index = .ok loaded ∧ dryRun = false ∧
        RunStumbles w.store (loaded.launchCommand host) (some loaded.located.folder.toText) limit
          e := by
  refine accepted_error_iff haccepted hindex (fun _ => rfl) ?_
  intro p w₁ hstore
  refine dispatch_error_iff.trans ?_
  rw [hstore]
  cases dryRun with
  | true => exact iff_of_false (Tool.not_unshown_of_texts (isText_of_mem_launchCommand p)) (by simp)
  | false => simp [Loaded.launchCommand]

end Project

end ClangDb
