import ClangDb.Proofs.Database.Refusal

/-! # What a pass raises

    A failure of the store has a sentence of its own in a report.  What a job or
    the start of a pass raises beside that is a path that is none, so a pass that
    ends with a bad path never does so for a failure of the store.

    The verdicts of a pool are those of its jobs at their turns, so the invariant
    of the turns is that no slot holds a verdict that was raised for a failure of
    the store.

    Key theorems:
    - `Pool.refused_turns`: what the jobs of a pool raise,
    - `passBy_ne_badPath`: what a pass raises.
-/

namespace ClangDb

namespace Database

variable {s t : Store} {r : Request} {job : Job} {jobs : List Job} {a : AccessError}
  {workers : Int} {order : List Nat}

/-- Holds of a failure that is none of the store. -/
def NotOfStore (a : AccessError) : Prop := ∀ e, a ≠ .file e

theorem Job.notOfStore_of_run (h : job.run s = .aborted a) : NotOfStore a := by
  obtain ⟨_, _, _, _, hwritable, hanswer⟩ := Job.run_eq_aborted_iff.mp h
  rintro e rfl
  rw [hwritable] at hanswer
  exact hanswer trivial

theorem notOfStore_of_runJobs (h : runJobs s jobs = (t, .error a)) : NotOfStore a := by
  rcases runJobs_spec s jobs with ⟨_, _, _, heq⟩ | ⟨_, _, _, _, _, e, _, _, haborted, heq⟩
  · rw [heq] at h
    cases (Prod.mk.inj h).2
  · rw [heq] at h
    obtain rfl := Except.error.inj (Prod.mk.inj h).2
    exact Job.notOfStore_of_run haborted

/-! ### Turns -/

/-- Holds of a pool in which nothing was raised for a failure of the store. -/
def Pool.Refused (pool : Pool) : Prop :=
  ∀ slot ∈ pool.slots, ∀ a, slot.verdict = some (.error a) → NotOfStore a

theorem Pool.refused_start (s : Store) (jobs : List Job) : (Pool.start s jobs).Refused := by
  intro slot hslot a ha
  obtain ⟨job, _, rfl⟩ := List.mem_map.mp hslot
  cases ha

theorem Pool.Refused.turn {pool : Pool} (h : pool.Refused) (i : Nat) : (pool.turn i).Refused := by
  rcases pool.turn_cases i with hsame | ⟨before, job, after, _, hslots, hturn⟩
  · rwa [hsame]
  · intro slot hslot a ha
    rw [hturn] at hslot
    rcases List.mem_append.mp hslot with hmem | hmem
    · exact h slot (by rw [hslots]; exact List.mem_append_left _ hmem) a ha
    · rcases List.mem_cons.mp hmem with rfl | hmem
      · -- the verdict is that of the job that has run at this turn
        rcases Job.attempt_cases pool.store job with ⟨effect, _, hattempt⟩ | ⟨e, hrun, hattempt⟩
        · rw [hattempt] at ha
          cases ha
        · rw [hattempt] at ha
          obtain rfl := Except.error.inj (Option.some.inj ha)
          exact Job.notOfStore_of_run hrun
      · refine h slot ?_ a ha
        rw [hslots]
        exact List.mem_append_right _ (List.mem_cons_of_mem _ hmem)

/-- **What the jobs of a pool raise** is never a failure of the store. -/
theorem Pool.refused_turns (s : Store) (jobs : List Job) (order : List Nat) :
    ((Pool.start s jobs).turns order).Refused := by
  suffices hturns : ∀ pool : Pool, pool.Refused → (pool.turns order).Refused from
    hturns _ (Pool.refused_start s jobs)
  induction order with
  | nil => exact fun pool h => h
  | cons i order ih => exact fun pool h => ih _ (h.turn i)

/-! ### A pass -/

/-- A count ends only with a verdict that was raised. -/
theorem mem_of_collect {verdicts : List (Option Verdict)}
    (h : collect verdicts = some (.error a)) : some (.error a) ∈ verdicts := by
  -- what is counted after a verdict ends no other way than it does alone
  have hmap : ∀ {result : Option (Except AccessError Tally)} {f : Tally → Tally},
      result.map (·.map f) = some (.error a) → result = some (.error a) := by
    intro result f hresult
    obtain ⟨rest, rfl, hrest⟩ := Option.map_eq_some_iff.mp hresult
    cases rest with
    | ok tally => cases hrest
    | error e =>
      obtain rfl := Except.error.inj hrest
      rfl
  induction verdicts with
  | nil => cases h
  | cons verdict more ih =>
    cases verdict with
    | none => cases h
    | some returned =>
      cases returned with
      | error e =>
        obtain rfl := Except.error.inj (Option.some.inj h)
        exact List.mem_cons_self
      | ok error? =>
        refine List.mem_cons_of_mem _ (ih ?_)
        cases error? with
        | none => exact hmap h
        | some e => exact hmap h

theorem notOfStore_of_runShared (h : runShared workers order s jobs = (t, some (.error a))) :
    NotOfStore a := by
  unfold runShared at h
  split at h
  · obtain ⟨slot, hslot, hverdict⟩ := List.mem_map.mp (mem_of_collect (Prod.mk.inj h).2)
    exact Pool.refused_turns s jobs order slot hslot a hverdict
  · obtain ⟨rfl, hresult⟩ := Prod.mk.inj h
    exact notOfStore_of_runJobs (Prod.ext rfl (Option.some.inj hresult))

theorem notOfStore_of_refusedBy {report : FileError → PassError} {cause : AccessError}
    (hreport : ∀ e, report e ≠ .badPath a) (h : refusedBy report cause = .badPath a) :
    NotOfStore a := by
  rintro e rfl
  cases cause with
  | file e' => exact hreport e' h
  | _ => cases h

/-- **What a pass raises** is never a failure of the store. -/
theorem passBy_ne_badPath (h : (passBy workers order s r).outcome = .error (.badPath a)) :
    NotOfStore a := by
  rcases passBy_cases workers order s r with
    ⟨made, e, hstart, heq⟩ | ⟨made, lines, t, result, _, hrun, heq⟩
  · rw [heq] at h
    obtain rfl := Except.error.inj h
    generalize hbad : PassError.badPath a = e at hstart
    cases refusal_of_start hstart with
    | blank => cases hbad
    | unread _ _ => exact notOfStore_of_refusedBy (by simp) hbad.symm
    | unmade _ _ _ => exact notOfStore_of_refusedBy (by simp) hbad.symm
  · rw [heq] at h
    cases result with
    | error a' =>
      obtain rfl := PassError.badPath.inj (Except.error.inj h)
      exact notOfStore_of_runShared hrun
    | ok tally => cases h

end Database

end ClangDb
