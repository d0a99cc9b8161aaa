import ClangDb.Database.Pass
import ClangDb.Proofs.FileStore.Write
import ClangDb.Proofs.Text.Occurrence
import Mathlib.Data.List.Forall2

/-! # What a run of jobs leaves

    Each job works on the store that the jobs before it left.  It writes one
    file, or it is reported and changes nothing, or it ends the run.  `Runs` is a
    run that comes to its end, with the effect of each job at its turn; it says
    what a job does without running it, by what its content is made of and where
    its path leads.

    A file is never written in place of a folder, so paths lead to the same
    places throughout a run.  What stands at a place afterwards is therefore
    decided by the effects alone: the file that was written there last, and what
    stood there before if none was.

    Key theorems:
    - `runJobs_eq_ok_iff`: runs that come to their end,
    - `Runs.entry?_eq`: what stands at each place after a run,
    - `Runs.split`: the turn of one job,
    - `Runs.read_eq`: what is read after a run.
-/

namespace ClangDb

namespace Database

/-! ### One job -/

/-- What becomes of a job. -/
inductive Effect where
  /-- A file was written at a place. -/
  | written (p : Place) (bytes : List UInt8)
  | failed (e : JobError)
  deriving DecidableEq, Repr

/-- The error of a job that failed. -/
def Effect.error? : Effect → Option JobError
  | .written _ _ => none
  | .failed e => some e

/-- The store after an effect. -/
def Effect.apply (s : Store) : Effect → Store
  | .written p bytes => s.put p (.file bytes none)
  | .failed _ => s

/-- What a job does on a store: the text of its content is encoded and written where its
    path leads, and the first of these that cannot be done is its error. -/
inductive Job.Does (s : Store) (job : Job) : Effect → Prop where
  | written {text : Text} {bytes : List UInt8} {p : Place} :
      job.content.render s = .ok text → Utf8.encode text = .ok bytes →
      s.writable job.path = .ok p → Job.Does s job (.written p bytes)
  | missing {e : ResponseFile.Missing} :
      job.content.render s = .error e → Job.Does s job (.failed (.missing job.sourceFile e))
  | unencodable {text : Text} {e : Utf8.EncodeError} :
      job.content.render s = .ok text → Utf8.encode text = .error e →
      Job.Does s job (.failed (.unencodable job.path e))
  | unwritable {text : Text} {bytes : List UInt8} {e : FileError} :
      job.content.render s = .ok text → Utf8.encode text = .ok bytes →
      s.writable job.path = .error (.file e) →
      Job.Does s job (.failed (.unwritable job.path e))

variable {s s' : Store} {job : Job} {jobs before after : List Job} {effect : Effect}
  {effects : List Effect} {p : Place}

/-- A path is written where it leads, or not for the reason that it leads nowhere. -/
theorem write_eq (s : Store) (path : Text) (bytes : List UInt8) :
    s.write path bytes = match s.writable path with
      | .ok p => .ok (s.put p (.file bytes none))
      | .error e => .error e := by
  unfold Store.write
  cases s.writable path <;> rfl

theorem Job.run_eq_written_iff :
    job.run s = .written s' ↔
      ∃ p bytes, job.Does s (.written p bytes) ∧ s' = s.put p (.file bytes none) := by
  constructor
  · intro h
    unfold Job.run at h
    split at h
    · cases h
    · next text hrender =>
      split at h
      · cases h
      · next bytes hencode =>
        rw [write_eq] at h
        cases hw : s.writable job.path with
        | ok p =>
          rw [hw] at h
          exact ⟨p, bytes, .written hrender hencode hw, (JobResult.written.inj h).symm⟩
        | error e =>
          rw [hw] at h
          cases e <;> cases h
  · rintro ⟨p, bytes, hdoes, rfl⟩
    cases hdoes with
    | written hrender hencode hw => simp [Job.run, hrender, hencode, write_eq, hw]

theorem Job.run_eq_failed_iff {e : JobError} :
    job.run s = .failed e ↔ job.Does s (.failed e) := by
  constructor
  · intro h
    unfold Job.run at h
    split at h
    · next hrender =>
      obtain rfl := JobResult.failed.inj h
      exact .missing hrender
    · next text hrender =>
      split at h
      · next hencode =>
        obtain rfl := JobResult.failed.inj h
        exact .unencodable hrender hencode
      · next bytes hencode =>
        rw [write_eq] at h
        cases hw : s.writable job.path with
        | ok p =>
          rw [hw] at h
          cases h
        | error e =>
          rw [hw] at h
          cases e with
          | file e =>
            obtain rfl := JobResult.failed.inj h
            exact .unwritable hrender hencode hw
          | embeddedNull => cases h
          | unencodable e => cases h
  · intro hdoes
    cases hdoes with
    | missing hrender => simp [Job.run, hrender]
    | unencodable hrender hencode => simp [Job.run, hrender, hencode]
    | unwritable hrender hencode hw => simp [Job.run, hrender, hencode, write_eq, hw]

/-- A job ends the run if all that it lacks is a path that can be used. -/
theorem Job.run_eq_aborted_iff {e : AccessError} :
    job.run s = .aborted e ↔ ∃ text bytes, job.content.render s = .ok text ∧
      Utf8.encode text = .ok bytes ∧ s.writable job.path = .error e ∧
      ¬ Store.IsAnswer (s.writable job.path) := by
  constructor
  · intro h
    unfold Job.run at h
    split at h
    · cases h
    · next text hrender =>
      split at h
      · cases h
      · next bytes hencode =>
        rw [write_eq] at h
        cases hw : s.writable job.path with
        | ok p =>
          rw [hw] at h
          cases h
        | error e =>
          rw [hw] at h
          cases e with
          | file e => cases h
          | embeddedNull =>
            obtain rfl := JobResult.aborted.inj h
            exact ⟨text, bytes, hrender, hencode, rfl, id⟩
          | unencodable e =>
            obtain rfl := JobResult.aborted.inj h
            exact ⟨text, bytes, hrender, hencode, rfl, id⟩
  · rintro ⟨text, bytes, hrender, hencode, hw, hanswer⟩
    rw [hw] at hanswer
    cases e with
    | file e => exact absurd trivial hanswer
    | embeddedNull => simp [Job.run, hrender, hencode, write_eq, hw]
    | unencodable e => simp [Job.run, hrender, hencode, write_eq, hw]

/-- A file is written where the path of its job leads and where no folder stands. -/
theorem Job.Does.place {bytes : List UInt8} (h : job.Does s (.written p bytes)) :
    Store.needsFolder job.path = false ∧ s.locate job.path = .ok p ∧
      s.entry? p ≠ some .folder := by
  cases h with
  | written _ _ hw => exact Store.writable_spec hw

/-- A job names its source file or its path in the sentence that reports its failure. -/
def JobError.Names (e : JobError) (job : Job) : Prop :=
  e.message.contains job.sourceFile = true ∨ e.message.contains job.path = true

theorem Job.Does.names {e : JobError} (h : job.Does s (.failed e)) : e.Names job := by
  cases h with
  | @missing m _ =>
    left
    refine Text.contains_iff_infix.mpr ⟨"RSP extract failed for ", ": " ++ m.message, ?_⟩
    simp [JobError.message]
  | @unencodable text e _ _ =>
    right
    refine Text.contains_iff_infix.mpr ⟨"Cannot write RSP: ", " (" ++ e.message ++ ")", ?_⟩
    simp [JobError.message]
  | @unwritable text bytes e _ _ _ =>
    right
    refine Text.contains_iff_infix.mpr ⟨"Cannot write RSP: ", " (" ++ e.message ++ ")", ?_⟩
    simp [JobError.message]

/-! ### All jobs -/

/-- A run of jobs that comes to its end, with the effect of each job on the store that the
    jobs before it left. -/
inductive Runs : Store → List Job → List Effect → Store → Prop where
  | nil (s : Store) : Runs s [] [] s
  | cons {s s' : Store} {job : Job} {jobs : List Job} {effect : Effect} {effects : List Effect} :
      job.Does s effect → Runs (effect.apply s) jobs effects s' →
      Runs s (job :: jobs) (effect :: effects) s'

/-- What is counted of effects: the files written, and the errors in their order. -/
def counted (effects : List Effect) : Tally where
  written := effects.countP (·.error?.isNone)
  errors := effects.filterMap Effect.error?

theorem counted_written (p : Place) (bytes : List UInt8) (effects : List Effect) :
    counted (.written p bytes :: effects) =
      { counted effects with written := (counted effects).written + 1 } := by
  simp [counted, List.filterMap_cons, Effect.error?]

theorem counted_failed (e : JobError) (effects : List Effect) :
    counted (.failed e :: effects) =
      { counted effects with errors := e :: (counted effects).errors } := by
  simp [counted, Effect.error?]

/-- A run that is counted came to its end; another was ended by one of its jobs. -/
theorem runJobs_spec (s : Store) (jobs : List Job) :
    (∃ s' effects, Runs s jobs effects s' ∧ runJobs s jobs = (s', .ok (counted effects))) ∨
      ∃ before job after effects s' e, jobs = before ++ job :: after ∧
        Runs s before effects s' ∧ job.run s' = .aborted e ∧ runJobs s jobs = (s', .error e) := by
  induction jobs generalizing s with
  | nil => exact .inl ⟨s, [], .nil s, rfl⟩
  | cons job more ih =>
    -- what the first job does is done, and the rest runs on what it leaves
    have hcons : ∀ {effect : Effect}, job.Does s effect →
        (∀ s' tally, runJobs (effect.apply s) more = (s', .ok (counted tally)) →
          runJobs s (job :: more) = (s', .ok (counted (effect :: tally)))) →
        (∀ s' e, runJobs (effect.apply s) more = (s', .error e) →
          runJobs s (job :: more) = (s', .error e)) →
        (∃ s' effects, Runs s (job :: more) effects s' ∧
          runJobs s (job :: more) = (s', .ok (counted effects))) ∨
        ∃ before j after effects s' e, job :: more = before ++ j :: after ∧
          Runs s before effects s' ∧ j.run s' = .aborted e ∧
          runJobs s (job :: more) = (s', .error e) := by
      intro effect hdoes hok herror
      rcases ih (effect.apply s) with ⟨s', effects, hruns, heq⟩ |
        ⟨before, j, after, effects, s', e, rfl, hruns, haborted, heq⟩
      · exact .inl ⟨s', effect :: effects, .cons hdoes hruns, hok s' effects heq⟩
      · exact .inr ⟨job :: before, j, after, effect :: effects, s', e, rfl, .cons hdoes hruns,
          haborted, herror s' e heq⟩
    cases hrun : job.run s with
    | written s₁ =>
      obtain ⟨p, bytes, hdoes, rfl⟩ := Job.run_eq_written_iff.mp hrun
      apply hcons hdoes
      · intro s' effects heq
        have heq' : runJobs (s.put p (.file bytes none)) more = (s', .ok (counted effects)) := heq
        simp only [runJobs, hrun, heq', counted_written]
      · intro s' e heq
        have heq' : runJobs (s.put p (.file bytes none)) more = (s', .error e) := heq
        simp only [runJobs, hrun, heq']
    | failed e =>
      apply hcons (Job.run_eq_failed_iff.mp hrun)
      · intro s' effects heq
        have heq' : runJobs s more = (s', .ok (counted effects)) := heq
        simp only [runJobs, hrun, heq', counted_failed]
      · intro s' e heq
        have heq' : runJobs s more = (s', .error e) := heq
        simp only [runJobs, hrun, heq']
    | aborted e =>
      refine .inr ⟨[], job, more, [], s, e, rfl, .nil s, hrun, ?_⟩
      simp only [runJobs, hrun]

/-- What a job does on a store is one thing only. -/
theorem Job.Does.run (h : job.Does s effect) :
    job.run s = match effect with
      | .written p bytes => .written (s.put p (.file bytes none))
      | .failed e => .failed e := by
  cases effect with
  | written p bytes => exact Job.run_eq_written_iff.mpr ⟨p, bytes, h, rfl⟩
  | failed e => exact Job.run_eq_failed_iff.mpr h

/-- A run that comes to its end is the one that is counted. -/
theorem Runs.runJobs_eq (h : Runs s jobs effects s') :
    runJobs s jobs = (s', .ok (counted effects)) := by
  induction h with
  | nil s => rfl
  | @cons s s' job jobs effect effects hdoes _ ih =>
    have hrun := hdoes.run
    cases effect with
    | written p bytes =>
      have ih' : runJobs (s.put p (.file bytes none)) jobs = (s', .ok (counted effects)) := ih
      simp only [runJobs, hrun, ih', counted_written]
    | failed e =>
      have ih' : runJobs s jobs = (s', .ok (counted effects)) := ih
      simp only [runJobs, hrun, ih', counted_failed]

/-- **The runs that are counted are those that come to their end.** -/
theorem runJobs_eq_ok_iff {tally : Tally} :
    runJobs s jobs = (s', .ok tally) ↔
      ∃ effects, Runs s jobs effects s' ∧ tally = counted effects := by
  constructor
  · intro h
    rcases runJobs_spec s jobs with ⟨s₁, effects, hruns, heq⟩ | ⟨_, _, _, _, s₁, e, _, _, _, heq⟩
    · rw [h] at heq
      obtain ⟨rfl, htally⟩ := Prod.mk.inj heq
      exact ⟨effects, hruns, Except.ok.inj htally⟩
    · rw [h] at heq
      cases (Prod.mk.inj heq).2
  · rintro ⟨effects, hruns, rfl⟩
    exact hruns.runJobs_eq

/-! ### The effects of a run -/

theorem Runs.length_eq (h : Runs s jobs effects s') : effects.length = jobs.length := by
  induction h with
  | nil s => rfl
  | cons _ _ ih => simp [ih]

/-- **The turn of one job**: a run is a run of the jobs before it, what it does on the store
    that they leave, and a run of those after it. -/
theorem Runs.split (h : Runs s (before ++ job :: after) effects s') :
    ∃ earlier effect later turn, effects = earlier ++ effect :: later ∧
      Runs s before earlier turn ∧ job.Does turn effect ∧
      Runs (effect.apply turn) after later s' := by
  induction before generalizing s effects with
  | nil =>
    cases h with
    | cons hdoes hruns => exact ⟨[], _, _, s, rfl, .nil s, hdoes, hruns⟩
  | cons first before ih =>
    cases h with
    | cons hdoes hruns =>
      obtain ⟨earlier, effect, later, turn, rfl, hbefore, hjob, hafter⟩ := ih hruns
      exact ⟨_ :: earlier, effect, later, turn, rfl, .cons hdoes hbefore, hjob, hafter⟩

/-- Paths lead where they led before an effect. -/
theorem Job.Does.locate_iff (h : job.Does s effect) {path : Text} {q : Place} :
    (effect.apply s).locate path = .ok q ↔ s.locate path = .ok q := by
  cases effect with
  | written p bytes =>
    obtain ⟨_, _, hfolder⟩ := h.place
    exact Store.locate_put_iff hfolder
  | failed e => exact Iff.rfl

/-- **Paths lead to the same places throughout a run.** -/
theorem Runs.locate_iff (h : Runs s jobs effects s') {path : Text} {q : Place} :
    s'.locate path = .ok q ↔ s.locate path = .ok q := by
  induction h with
  | nil s => exact Iff.rfl
  | cons hdoes _ ih => exact ih.trans hdoes.locate_iff

/-- The file that was written last at a place. -/
def lastAt (p : Place) : List Effect → Option (List UInt8)
  | [] => none
  | .failed _ :: effects => lastAt p effects
  | .written q bytes :: effects => (lastAt p effects).or (if q = p then some bytes else none)

theorem lastAt_eq_none_iff : lastAt p effects = none ↔ ∀ bytes, .written p bytes ∉ effects := by
  induction effects with
  | nil => simp [lastAt]
  | cons effect effects ih =>
    cases effect with
    | failed e => simp [lastAt, ih]
    | written q bytes =>
      rw [lastAt, Option.or_eq_none_iff, ih]
      by_cases hq : q = p
      · subst hq
        simp only [if_true, reduceCtorEq, and_false, false_iff, not_forall, not_not]
        exact ⟨bytes, List.mem_cons_self⟩
      · simp [hq, Ne.symm hq]

theorem mem_of_lastAt {bytes : List UInt8} (h : lastAt p effects = some bytes) :
    .written p bytes ∈ effects := by
  induction effects with
  | nil => cases h
  | cons effect effects ih =>
    cases effect with
    | failed e => exact List.mem_cons_of_mem _ (ih h)
    | written q b =>
      rw [lastAt, Option.or_eq_some_iff] at h
      rcases h with h | ⟨_, h⟩
      · exact List.mem_cons_of_mem _ (ih h)
      · by_cases hq : q = p
        · rw [if_pos hq] at h
          obtain rfl := Option.some.inj h
          rw [hq]
          exact List.mem_cons_self
        · rw [if_neg hq] at h
          cases h

/-- What stands at a place where something was written, or was not. -/
def leaves (before : Option Entry) : Option (List UInt8) → Option Entry
  | some bytes => some (.file bytes none)
  | none => before

/-- **What stands at a place after a run**: the file that was written there last, and what
    stood there before if none was. -/
theorem Runs.entry?_eq (h : Runs s jobs effects s') (p : Place) :
    s'.entry? p = leaves ( s.entry? p) (lastAt p effects) := by
  induction h with
  | nil s => rfl
  | @cons s s' job jobs effect effects hdoes _ ih =>
    rw [ih]
    cases effect with
    | failed e => rfl
    | written q bytes =>
      obtain ⟨_, _, hfolder⟩ := hdoes.place
      show leaves ( Store.entry? (s.put q (.file bytes none)) p) (lastAt p effects) =
        leaves ( s.entry? p) ((lastAt p effects).or (if q = p then some bytes else none))
      cases lastAt p effects with
      | some later => rfl
      | none =>
        by_cases hq : q = p
        · subst hq
          simp [leaves, Store.entry?_put_self hfolder]
        · simp [leaves, hq, Store.entry?_put_ne (Ne.symm hq)]

/-- Under a path that leads to no place that was written the same is found as before. -/
theorem Runs.find_eq_ok_iff (h : Runs s jobs effects s') {path : Text} {e : Entry}
    (hlast : ∀ p, s.locate path = .ok p → lastAt p effects = none) :
    s'.find path = .ok e ↔ s.find path = .ok e := by
  rw [Store.find_eq_ok_iff, Store.find_eq_ok_iff]
  constructor
  · rintro ⟨p, hlocate, hentry, hneeds⟩
    have hlocate' := h.locate_iff.mp hlocate
    rw [h.entry?_eq p, hlast p hlocate'] at hentry
    exact ⟨p, hlocate', hentry, hneeds⟩
  · rintro ⟨p, hlocate, hentry, hneeds⟩
    refine ⟨p, h.locate_iff.mpr hlocate, ?_, hneeds⟩
    rw [h.entry?_eq p, hlast p hlocate]
    exact hentry

/-- **What is read after a run**: the file that was written last in its place, and what was
    read before if none was. -/
theorem Runs.read_eq (h : Runs s jobs effects s') {path : Text} {bytes : List UInt8}
    (hlocate : s.locate path = .ok p) (hread : s.read path = .ok bytes) :
    s'.read path = .ok ((lastAt p effects).getD bytes) := by
  obtain ⟨program, hfind⟩ := Store.read_eq_ok_iff.mp hread
  obtain ⟨q, hlocate', hentry, hneeds⟩ := Store.find_eq_ok_iff.mp hfind
  obtain rfl := Except.ok.inj (hlocate.symm.trans hlocate')
  have hnot : Store.needsFolder path ≠ true := fun hn => by cases hneeds hn
  have hplace := h.entry?_eq p
  rw [hentry] at hplace
  cases hlast : lastAt p effects with
  | none =>
    rw [hlast] at hplace
    exact Store.read_eq_ok_iff.mpr ⟨program, Store.find_eq_ok_iff.mpr
      ⟨p, h.locate_iff.mpr hlocate, hplace, fun hn => absurd hn hnot⟩⟩
  | some later =>
    rw [hlast] at hplace
    exact Store.read_eq_ok_iff.mpr ⟨none, Store.find_eq_ok_iff.mpr
      ⟨p, h.locate_iff.mpr hlocate, hplace, fun hn => absurd hn hnot⟩⟩

/-- The file that a job has written is read under its path, unless a later job was written at
    the same place. -/
theorem Runs.read_written {turn : Store} {bytes : List UInt8} {later : List Effect}
    (hdoes : job.Does turn (.written p bytes))
    (h : Runs (Effect.apply turn (.written p bytes)) after later s') :
    s'.read job.path = .ok ((lastAt p later).getD bytes) := by
  have hlocate := hdoes.locate_iff.mpr hdoes.place.2.1
  cases hdoes with
  | written _ _ hw =>
    have hwrite : turn.write job.path bytes = .ok (turn.put p (.file bytes none)) := by
      rw [write_eq, hw]
    exact h.read_eq hlocate (Store.read_write hwrite)

end Database

end ClangDb
