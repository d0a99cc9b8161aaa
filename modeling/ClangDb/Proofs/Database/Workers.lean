import ClangDb.Database.Pool
import ClangDb.Proofs.Database.Pass

/-! # What a pool of workers does

    A turn either changes nothing or runs one job that has not run, on the store
    as it is then, and keeps the verdict with the job.  So the jobs of a pool stay
    what they are, a job that has run is not run again, and an order of turns in
    which every position comes up runs all jobs.

    A pass with workers is refused before it scans, or it scans its lines and has
    a report as soon as all verdicts are there and none was raised.

    Key theorems:
    - `Job.attempt_cases`: what running a job does,
    - `Pool.turn_cases`: what a turn does,
    - `Pool.hasRun_turns`: the jobs that have run,
    - `passWith_spec`: a pass with a report,
    - `passBy_cases`, `passBy_spec`: a pass that is taken to its end,
    - `runShared_keeps`: what a run of jobs keeps.
-/

namespace ClangDb

namespace Database

variable {s s' : Store} {job : Job} {jobs before after : List Job} {effect : Effect}
  {effects : List Effect} {pool : Pool}

/-! ### One job -/

/-- A job that has an effect returns its error, if any. -/
theorem Job.Does.attempt (h : job.Does s effect) :
    job.attempt s = (effect.apply s, .ok effect.error?) := by
  have hrun := h.run
  unfold Job.attempt
  cases effect with
  | written p bytes =>
    simp only at hrun
    rw [hrun]
    rfl
  | failed e =>
    simp only at hrun
    rw [hrun]
    rfl

/-- **A job has an effect and returns, or it raises** and leaves the store as it was. -/
theorem Job.attempt_cases (s : Store) (job : Job) :
    (∃ effect, job.Does s effect ∧ job.attempt s = (effect.apply s, .ok effect.error?)) ∨
      ∃ e, job.run s = .aborted e ∧ job.attempt s = (s, .error e) := by
  cases hrun : job.run s with
  | written s' =>
    obtain ⟨p, bytes, hdoes, _⟩ := Job.run_eq_written_iff.mp hrun
    exact .inl ⟨_, hdoes, hdoes.attempt⟩
  | failed e =>
    have hdoes := Job.run_eq_failed_iff.mp hrun
    exact .inl ⟨_, hdoes, hdoes.attempt⟩
  | aborted e =>
    refine .inr ⟨e, rfl, ?_⟩
    unfold Job.attempt
    rw [hrun]

/-! ### One turn -/

/-- **A turn changes nothing, or it runs one job** that has not run. -/
theorem Pool.turn_cases (pool : Pool) (i : Nat) :
    pool.turn i = pool ∨
      ∃ before job after, before.length = i ∧ pool.slots = before ++ ⟨job, none⟩ :: after ∧
        pool.turn i = ⟨(job.attempt pool.store).1,
          before ++ ⟨job, some (job.attempt pool.store).2⟩ :: after⟩ := by
  cases hslot : pool.slots[i]? with
  | none =>
    left
    unfold Pool.turn
    rw [hslot]
  | some slot =>
    obtain ⟨job, verdict⟩ := slot
    cases verdict with
    | some v =>
      left
      unfold Pool.turn
      rw [hslot]
    | none =>
      right
      obtain ⟨hlt, hget⟩ := List.getElem?_eq_some_iff.mp hslot
      refine ⟨pool.slots.take i, job, pool.slots.drop (i + 1), ?_, ?_, ?_⟩
      · rw [List.length_take]
        omega
      · rw [← hget, ← List.drop_eq_getElem_cons hlt, List.take_append_drop]
      · unfold Pool.turn
        rw [hslot]
        show (⟨(job.attempt pool.store).1,
          pool.slots.set i ⟨job, some (job.attempt pool.store).2⟩⟩ : Pool) = _
        rw [List.set_eq_take_append_cons_drop, if_pos hlt]

/-- The jobs of a pool stay what they are. -/
theorem Pool.jobs_turns (pool : Pool) (order : List Nat) :
    (pool.turns order).slots.map (·.job) = pool.slots.map (·.job) := by
  induction order generalizing pool with
  | nil => rfl
  | cons i order ih =>
    show ((pool.turn i).turns order).slots.map (·.job) = pool.slots.map (·.job)
    rw [ih]
    rcases pool.turn_cases i with hsame | ⟨before, job, after, _, hslots, hturn⟩
    · rw [hsame]
    · rw [hturn, hslots]
      simp

theorem Pool.jobs_start (s : Store) (jobs : List Job) :
    (Pool.start s jobs).slots.map (·.job) = jobs := by
  unfold Pool.start
  rw [List.map_map]
  exact List.map_id jobs

/-! ### Jobs that have run -/

/-- Holds of a pool and a position whose job has run. -/
def Pool.HasRun (pool : Pool) (i : Nat) : Prop :=
  ∃ job verdict, pool.slots[i]? = some ⟨job, some verdict⟩

/-- A job that has run is not run again. -/
theorem Pool.HasRun.turn {k : Nat} (h : pool.HasRun k) (i : Nat) : (pool.turn i).HasRun k := by
  obtain ⟨job, verdict, hk⟩ := h
  rcases pool.turn_cases i with hsame | ⟨before, first, after, hlength, hslots, hturn⟩
  · rw [hsame]
    exact ⟨job, verdict, hk⟩
  · refine ⟨job, verdict, ?_⟩
    have hne : k ≠ before.length := by
      intro he
      rw [hslots, he, List.getElem?_append_right (Nat.le_refl _), Nat.sub_self] at hk
      cases hk
    rw [hslots] at hk
    rw [hturn]
    show (before ++ _ :: after)[k]? = _
    by_cases hlt : k < before.length
    · rw [List.getElem?_append_left hlt] at hk ⊢
      exact hk
    · have hpos : k - before.length = (k - before.length - 1) + 1 := by omega
      rw [List.getElem?_append_right (by omega), hpos, List.getElem?_cons_succ] at hk ⊢
      exact hk

theorem Pool.hasRun_turn {i : Nat} (h : i < pool.slots.length) : (pool.turn i).HasRun i := by
  cases hslot : pool.slots[i] with
  | mk job verdict =>
    have hget : pool.slots[i]? = some ⟨job, verdict⟩ := by
      rw [List.getElem?_eq_getElem h, hslot]
    unfold Pool.turn
    rw [hget]
    cases verdict with
    | some v => exact ⟨job, v, hget⟩
    | none =>
      refine ⟨job, (job.attempt pool.store).2, ?_⟩
      show (pool.slots.set i _)[i]? = _
      rw [List.getElem?_set_self h]

theorem Pool.length_turn (pool : Pool) (i : Nat) :
    (pool.turn i).slots.length = pool.slots.length := by
  rcases pool.turn_cases i with hsame | ⟨before, job, after, _, hslots, hturn⟩
  · rw [hsame]
  · rw [hturn, hslots]
    simp

/-- **Every job whose position comes up has run.** -/
theorem Pool.hasRun_turns {order : List Nat} {k : Nat} (hk : k < pool.slots.length)
    (h : k ∈ order ∨ pool.HasRun k) : (pool.turns order).HasRun k := by
  induction order generalizing pool with
  | nil =>
    rcases h with h | h
    · cases h
    · exact h
  | cons i order ih =>
    show ((pool.turn i).turns order).HasRun k
    apply ih
    · rw [Pool.length_turn]
      exact hk
    · rcases h with h | h
      · rcases List.mem_cons.mp h with rfl | h
        · exact .inr (Pool.hasRun_turn hk)
        · exact .inl h
      · exact .inr (h.turn i)

/-- An order in which every position comes up runs all jobs. -/
theorem Pool.isSome_of_turns {order : List Nat} (hall : ∀ i, i < jobs.length → i ∈ order) :
    ∀ slot ∈ ((Pool.start s jobs).turns order).slots, slot.verdict.isSome = true := by
  intro slot hslot
  obtain ⟨i, hi, hget⟩ := List.getElem_of_mem hslot
  have hlength : ((Pool.start s jobs).turns order).slots.length = jobs.length := by
    have hjobs := ((Pool.start s jobs).jobs_turns order).trans (Pool.jobs_start s jobs)
    have hlengths := congrArg List.length hjobs
    rwa [List.length_map] at hlengths
  have hstart : (Pool.start s jobs).slots.length = jobs.length := List.length_map _
  have hposition : ((Pool.start s jobs).turns order).HasRun i :=
    Pool.hasRun_turns (by omega) (.inl (hall i (by omega)))
  obtain ⟨job, verdict, hrun⟩ := hposition
  rw [List.getElem?_eq_getElem hi, hget] at hrun
  rw [Option.some.inj hrun]
  rfl

/-! ### Counting verdicts -/

/-- The verdicts of jobs that all have an effect count the effects. -/
theorem collect_of_forall₂ (h : List.Forall₂ (fun job effect => Job.Does s job effect) jobs effects) :
    collect (jobs.map fun job => some (job.attempt s).2) = some (.ok (counted effects)) := by
  induction h with
  | nil => rfl
  | @cons job effect jobs effects hdoes _ ih =>
    rw [List.map_cons, hdoes.attempt]
    cases effect with
    | written p bytes =>
      show (collect _).map _ = _
      rw [ih, counted_written]
      rfl
    | failed e =>
      show (collect _).map _ = _
      rw [ih, counted_failed]
      rfl

/-- The first verdict that was raised is raised again. -/
theorem collect_of_aborted {e : AccessError}
    (h : List.Forall₂ (fun job effect => Job.Does s job effect) before effects)
    (hjob : (job.attempt s).2 = .error e) (after : List Job) :
    collect ((before ++ job :: after).map fun job => some (job.attempt s).2) =
      some (.error e) := by
  induction h with
  | nil =>
    rw [List.nil_append, List.map_cons, hjob]
    rfl
  | @cons first effect before effects hdoes _ ih =>
    rw [List.cons_append, List.map_cons, hdoes.attempt]
    cases effect with
    | written p bytes =>
      show (collect _).map _ = _
      rw [ih]
      rfl
    | failed error =>
      show (collect _).map _ = _
      rw [ih]
      rfl

/-- What is counted first leaves a count of the rest. -/
theorem exists_of_map_eq_ok {result : Option (Except AccessError Tally)} {f : Tally → Tally}
    {tally : Tally} (h : result.map (·.map f) = some (.ok tally)) :
    ∃ rest, result = some (.ok rest) := by
  obtain ⟨before, hbefore, hok⟩ := Option.map_eq_some_iff.mp h
  cases before with
  | error e => cases hok
  | ok rest => exact ⟨rest, hbefore⟩

/-- A count waits for all verdicts. -/
theorem isSome_of_collect {verdicts : List (Option Verdict)} {tally : Tally}
    (h : collect verdicts = some (.ok tally)) : ∀ v ∈ verdicts, v.isSome = true := by
  induction verdicts generalizing tally with
  | nil =>
    intro v hv
    cases hv
  | cons verdict more ih =>
    cases verdict with
    | none => cases h
    | some returned =>
      cases returned with
      | error e => cases h
      | ok error? =>
        obtain ⟨rest, hrest⟩ : ∃ rest, collect more = some (.ok rest) := by
          cases error? with
          | none => exact exists_of_map_eq_ok h
          | some e => exact exists_of_map_eq_ok h
        intro v hv
        rcases List.mem_cons.mp hv with rfl | hv
        · rfl
        · exact ih hrest v hv

/-- A run that is not shared out and comes to its end is a run of all jobs, one after another,
    whose effects are counted. -/
theorem runs_of_runShared {workers : Int} {order : List Nat} {tally : Tally}
    (hserial : ¬ (1 < workers ∧ 1 < jobs.length))
    (h : runShared workers order s jobs = (s', some (.ok tally))) :
    ∃ effects, Runs s jobs effects s' ∧ tally = counted effects := by
  unfold runShared at h
  rw [if_neg hserial] at h
  obtain ⟨rfl, hresult⟩ := Prod.mk.inj h
  exact runJobs_eq_ok_iff.mp (Prod.ext rfl (Option.some.inj hresult))

/-! ### A pass -/

/-- A pass is what it does before it scans, then its scan and its jobs. -/
theorem pass_eq_start (s : Store) (r : Request) :
    pass s r = match r.start s with
      | (s, .error e) => ⟨s, [], .error e⟩
      | (s, .ok lines) => passLines s r.options lines := by
  unfold pass Request.start
  by_cases hengine : r.engineDir.trim.isEmpty = true
  · rw [if_pos hengine, if_pos hengine]
  · rw [if_neg hengine, if_neg hengine]
    cases s.read r.input with
    | error e => cases e <;> rfl
    | ok bytes =>
      simp only
      obtain ⟨made, result⟩ := s.makeFolders r.options.outputDir
      cases result with
      | ok _ => rfl
      | error e => cases e <;> rfl

/-- **A pass with one worker runs its jobs one after another.** -/
theorem passWith_of_le_one {workers : Int} (h : workers ≤ 1) (order : List Nat) (s : Store)
    (r : Request) : passWith workers order s r = some (pass s r) := by
  have hserial : ∀ n : Nat, ¬ (1 < workers ∧ 1 < n) := by
    intro n hboth
    omega
  rw [pass_eq_start]
  unfold passWith
  obtain ⟨made, result⟩ := r.start s
  cases result with
  | error e => rfl
  | ok lines =>
    simp only [runShared, if_neg (hserial _), passLines, Options.conclude]
    obtain ⟨after, outcome⟩ := runJobs made (scanLines r.options .initial lines).jobs
    cases outcome <;> rfl

/-- A pass that is not refused has read its input and made its output folder. -/
theorem start_eq_ok_iff {r : Request} {made : Store} {lines : List Text} :
    r.start s = (made, .ok lines) ↔ r.engineDir.trim.isEmpty = false ∧
      ∃ bytes, s.read r.input = .ok bytes ∧ s.makeFolders r.options.outputDir = (made, .ok ()) ∧
        lines = Text.rawLines (Utf8.decodeEscaping bytes) := by
  unfold Request.start
  constructor
  · intro h
    split at h
    · cases (Prod.mk.inj h).2
    · next hengine =>
      refine ⟨by simpa using hengine, ?_⟩
      split at h
      · cases (Prod.mk.inj h).2
      · cases (Prod.mk.inj h).2
      · next bytes hread =>
        split at h
        · cases (Prod.mk.inj h).2
        · cases (Prod.mk.inj h).2
        · next made' hfolders =>
          obtain ⟨rfl, hlines⟩ := Prod.mk.inj h
          exact ⟨bytes, hread, hfolders, (Except.ok.inj hlines).symm⟩
  · intro h
    obtain ⟨hengine, bytes, hread, hfolders, hlines⟩ := h
    rw [hengine, hread]
    simp only [Bool.false_eq_true, if_false, hfolders, hlines]

/-- A pass that is refused has nothing to share out. -/
theorem passWith_of_start {r : Request} {made : Store} {e : PassError}
    (h : r.start s = (made, .error e)) (workers : Int) (order : List Nat) :
    passWith workers order s r = some ⟨made, [], .error e⟩ := by
  unfold passWith
  rw [h]

/-- **A pass with a report was not refused**, all its jobs have a verdict that was not raised,
    and the report is made from the lines and what was counted. -/
theorem passWith_spec {workers : Int} {order : List Nat} {r : Request} {p : Pass}
    {report : Report} (h : passWith workers order s r = some p) (hok : p.outcome = .ok report) :
    ∃ made lines tally, r.start s = (made, .ok lines) ∧
      runShared workers order made (scanLines r.options .initial lines).jobs =
        (p.store, some (.ok tally)) ∧
      report = ⟨(scanLines r.options .initial lines).lines.flatten, tally.written, tally.errors,
        countCommands lines⟩ := by
  unfold passWith at h
  split at h
  · obtain rfl := Option.some.inj h
    cases hok
  · next made lines hstart =>
    split at h
    · next after result hrun =>
      obtain rfl := Option.some.inj h
      cases result with
      | error e => cases hok
      | ok tally => exact ⟨made, lines, tally, hstart, hrun, (Except.ok.inj hok).symm⟩
    · cases h

/-! ### A pass that is taken to its end -/

/-- Verdicts that are all there can be counted. -/
theorem exists_collect {verdicts : List (Option Verdict)} (h : ∀ v ∈ verdicts, v.isSome = true) :
    ∃ result, collect verdicts = some result := by
  induction verdicts with
  | nil => exact ⟨_, rfl⟩
  | cons verdict more ih =>
    obtain ⟨rest, hrest⟩ := ih fun v hv => h v (List.mem_cons_of_mem _ hv)
    cases verdict with
    | none => cases h none List.mem_cons_self
    | some verdict =>
      cases verdict with
      | error e => exact ⟨_, rfl⟩
      | ok error =>
        cases error with
        | none =>
          rw [collect, hrest]
          exact ⟨_, rfl⟩
        | some e =>
          rw [collect, hrest]
          exact ⟨_, rfl⟩

/-- An order in which every job comes up leaves none that is waited for. -/
theorem exists_runShared (workers : Int) {order : List Nat} (s : Store) {jobs : List Job}
    (hall : ∀ i, i < jobs.length → i ∈ order) :
    ∃ t result, runShared workers order s jobs = (t, some result) := by
  unfold runShared
  by_cases hshared : 1 < workers ∧ 1 < jobs.length
  · rw [if_pos hshared]
    have hcollect : ∃ result, collect
        (((Pool.start s jobs).turns order).slots.map (·.verdict)) = some result := by
      apply exists_collect
      intro v hv
      obtain ⟨slot, hslot, rfl⟩ := List.mem_map.mp hv
      exact Pool.isSome_of_turns hall slot hslot
    obtain ⟨result, hresult⟩ := hcollect
    exact ⟨_, result, Prod.ext rfl hresult⟩
  · rw [if_neg hshared]
    exact ⟨_, _, rfl⟩

/-- **A pass that is taken to its end** is refused, or shares out its jobs and waits for all of
    them. -/
theorem passBy_cases (workers : Int) (order : List Nat) (s : Store) (r : Request) :
    (∃ made e, r.start s = (made, .error e) ∧ passBy workers order s r = ⟨made, [], .error e⟩) ∨
      ∃ made lines t result, r.start s = (made, .ok lines) ∧
        runShared workers (order ++ List.range (r.jobs s).length) made
          (scanLines r.options .initial lines).jobs = (t, some result) ∧
        passBy workers order s r = r.options.conclude lines t result := by
  cases hstart : r.start s with
  | mk made started =>
    cases started with
    | error e =>
      left
      refine ⟨made, e, rfl, ?_⟩
      unfold passBy
      rw [passWith_of_start hstart]
      rfl
    | ok lines =>
      right
      have hjobs : r.jobs s = (scanLines r.options .initial lines).jobs := by
        unfold Request.jobs
        rw [hstart]
      have hall : ∀ i, i < (scanLines r.options .initial lines).jobs.length →
          i ∈ order ++ List.range (r.jobs s).length := by
        intro i hi
        rw [hjobs]
        exact List.mem_append_right _ (List.mem_range.mpr hi)
      obtain ⟨t, result, hrun⟩ := exists_runShared workers made hall
      refine ⟨made, lines, t, result, rfl, hrun, ?_⟩
      unfold passBy passWith
      rw [hstart]
      simp only [hrun]
      rfl

/-- **A pass that is taken to its end with a report** has made its output folder, and its text is
    what the scan gave. -/
theorem passBy_spec {workers : Int} {order : List Nat} {r : Request} {report : Report}
    (h : (passBy workers order s r).outcome = .ok report) :
    ∃ made bytes result, s.makeFolders r.options.outputDir = (made, .ok ()) ∧
      runShared workers (order ++ List.range (r.jobs s).length) made (r.scan bytes).jobs =
        ((passBy workers order s r).store, some result) ∧
      report.text = (r.scan bytes).lines.flatten := by
  rcases passBy_cases workers order s r with ⟨made, e, _, hpass⟩ |
    ⟨made, lines, t, result, hstart, hrun, hpass⟩
  · rw [hpass] at h
    cases h
  · rw [hpass] at h
    obtain ⟨_, bytes, _, hmade, rfl⟩ := start_eq_ok_iff.mp hstart
    cases result with
    | error e => cases h
    | ok tally =>
      refine ⟨made, bytes, .ok tally, hmade, ?_, ?_⟩
      · rw [hpass]
        exact hrun
      · rw [← Except.ok.inj h]
        rfl

/-- With one worker it is the pass that runs its jobs one after another. -/
theorem passBy_of_le_one {workers : Int} (h : workers ≤ 1) (order : List Nat) (s : Store)
    (r : Request) : passBy workers order s r = pass s r := by
  unfold passBy
  rw [passWith_of_le_one h]
  rfl

/-! ### What every job keeps -/

section Keeps

variable {R : Store → Store → Prop} (hrefl : ∀ s, R s s)
  (htrans : ∀ {s t u}, R s t → R t u → R s u)

include hrefl htrans

/-- What the effect of each job keeps is kept by a run of the jobs. -/
theorem Runs.keeps (h : Runs s jobs effects s')
    (hstep : ∀ job ∈ jobs, ∀ s effect, Job.Does s job effect → R s (effect.apply s)) : R s s' := by
  induction h with
  | nil s => exact hrefl s
  | cons hdoes _ ih =>
    have hfirst := hstep _ List.mem_cons_self _ _ hdoes
    exact htrans hfirst (ih fun job hjob => hstep job (List.mem_cons_of_mem _ hjob))

theorem Pool.keeps_turns (pool : Pool) (order : List Nat)
    (hstep : ∀ job ∈ pool.slots.map (·.job), ∀ s effect, Job.Does s job effect →
      R s (effect.apply s)) : R pool.store (pool.turns order).store := by
  induction order generalizing pool with
  | nil => exact hrefl _
  | cons i order ih =>
    -- a turn leaves the jobs what they are
    have hjobs : (pool.turn i).slots.map (·.job) = pool.slots.map (·.job) := pool.jobs_turns [i]
    have hrest : R (pool.turn i).store ((pool.turn i).turns order).store := by
      apply ih
      rw [hjobs]
      exact hstep
    refine htrans ?_ hrest
    rcases pool.turn_cases i with hsame | ⟨before, job, after, _, hslots, hturn⟩
    · rw [hsame]
      exact hrefl _
    · have hmem : job ∈ pool.slots.map (·.job) := by
        rw [hslots]
        simp
      rw [hturn]
      rcases Job.attempt_cases pool.store job with ⟨effect, hdoes, hattempt⟩ | ⟨e, _, hattempt⟩
      · rw [hattempt]
        exact hstep job hmem _ effect hdoes
      · rw [hattempt]
        exact hrefl _

/-- **What each job keeps is kept by a run of jobs**, however it is shared out and whether or
    not it comes to its end. -/
theorem runShared_keeps (workers : Int) (order : List Nat) (s : Store) {jobs : List Job}
    (hstep : ∀ job ∈ jobs, ∀ s effect, Job.Does s job effect → R s (effect.apply s)) :
    R s (runShared workers order s jobs).1 := by
  unfold runShared
  by_cases hshared : 1 < workers ∧ 1 < jobs.length
  · rw [if_pos hshared]
    have hjobs : (Pool.start s jobs).slots.map (·.job) = jobs := Pool.jobs_start s jobs
    refine Pool.keeps_turns hrefl htrans (Pool.start s jobs) order ?_
    rw [hjobs]
    exact hstep
  · rw [if_neg hshared]
    rcases runJobs_spec s jobs with ⟨s', effects, hruns, heq⟩ |
      ⟨before, job, after, effects, s', e, hsplit, hruns, _, heq⟩
    · rw [heq]
      exact hruns.keeps hrefl htrans hstep
    · rw [heq]
      refine hruns.keeps hrefl htrans ?_
      intro j hj
      apply hstep
      rw [hsplit]
      exact List.mem_append_left _ hj

end Keeps

end Database

end ClangDb
