import ClangDb.Proofs.Database.References
import ClangDb.Proofs.Database.Workers
import ClangDb.Proofs.FileStore.Overlay

/-! # Jobs that others do not disturb

    A job reads the response file that it is made from, follows its path and
    writes a file there.  What other jobs write disturbs it in two ways only: they
    write the file that it reads, or a file on the way of its path, where the
    reason why nothing can be written would change.  A job that is clear of the
    places that the jobs write does the same at every turn as it would do at
    first.

    So each job of a run of clear jobs has the effect that it has at first, even
    if what the jobs write was written before; and if those that write at one
    place write the same there, the store after the run is the one before with
    everything added that they write.

    Key theorems:
    - `Job.Clear.does_iff`, `Job.Clear.verdict_eq`: one clear job,
    - `Runs.overlay`: a run of clear jobs,
    - `Runs.serves`: what it leaves.
-/

namespace ClangDb

namespace Database

variable {s t t' : Store} {job : Job} {jobs : List Job} {effect : Effect}
  {effects : List Effect} {p : Place} {bytes : List UInt8} {places : Place → Prop}

/-! ### A clear job -/

/-- Holds of a job that reads none of the places, and that does not pass one of them on its
    way if it has something to write. -/
structure Job.Clear (s : Store) (places : Place → Prop) (job : Job) : Prop where
  source : ∀ p, job.IsFrom s p → ¬ places p
  path : ∀ text, job.content.render s = .ok text → ∀ p, s.LeadsThrough job.path p → ¬ places p

/-- What a job does on a store is one thing only. -/
theorem Job.Does.unique {effect' : Effect} (h : job.Does s effect) (h' : job.Does s effect') :
    effect = effect' := by
  -- each kind of effect says what was rendered, encoded and found writable
  cases h <;> cases h' <;> simp_all

/-- A job that does not read one of the places has the same text on both stores. -/
theorem Job.Clear.render_eq (h : job.Clear s places) (hover : Store.Overlays places s t) :
    job.content.render t = job.content.render s := by
  cases hcontent : job.content with
  | arguments tail => rfl
  | conversion source engineDir dialect =>
    have hfind : ∀ e, t.find source = .ok e ↔ s.find source = .ok e := by
      intro e
      apply hover.find_iff
      intro p hlocate
      exact h.source p ⟨source, engineDir, dialect, hcontent, hlocate⟩
    show ResponseFile.convert t dialect engineDir source =
      ResponseFile.convert s dialect engineDir source
    unfold ResponseFile.convert
    cases hs : s.find source with
    | ok e => rw [(hfind e).mpr hs]
    | error e =>
      cases ht : t.find source with
      | error e' => rfl
      | ok e' =>
        rw [(hfind e').mp ht] at hs
        cases hs

/-- A job that has something to write is let write in both stores, or in neither. -/
theorem Job.Clear.writable_eq (h : job.Clear s places) (hover : Store.Overlays places s t)
    {text : Text} (hrender : job.content.render s = .ok text) :
    t.writable job.path = s.writable job.path :=
  hover.writable_eq (h.path text hrender)

/-- **A clear job does the same on both stores.** -/
theorem Job.Clear.does_iff (h : job.Clear s places) (hover : Store.Overlays places s t) :
    job.Does t effect ↔ job.Does s effect := by
  have hsame := h.render_eq hover
  constructor
  · intro hdoes
    cases hdoes with
    | written hrender hencode hw =>
      rw [hsame] at hrender
      rw [h.writable_eq hover hrender] at hw
      exact .written hrender hencode hw
    | missing hrender =>
      rw [hsame] at hrender
      exact .missing hrender
    | unencodable hrender hencode =>
      rw [hsame] at hrender
      exact .unencodable hrender hencode
    | unwritable hrender hencode hw =>
      rw [hsame] at hrender
      rw [h.writable_eq hover hrender] at hw
      exact .unwritable hrender hencode hw
  · intro hdoes
    cases hdoes with
    | written hrender hencode hw =>
      rw [← h.writable_eq hover hrender] at hw
      exact .written (hsame.trans hrender) hencode hw
    | missing hrender => exact .missing (hsame.trans hrender)
    | unencodable hrender hencode => exact .unencodable (hsame.trans hrender) hencode
    | unwritable hrender hencode hw =>
      rw [← h.writable_eq hover hrender] at hw
      exact .unwritable (hsame.trans hrender) hencode hw

/-- **A clear job has the same verdict on both stores.** -/
theorem Job.Clear.verdict_eq (h : job.Clear s places) (hover : Store.Overlays places s t) :
    (job.attempt t).2 = (job.attempt s).2 := by
  rcases Job.attempt_cases t job with ⟨effect, hdoes, hattempt⟩ | ⟨e, hrun, hattempt⟩
  · rw [hattempt, ((h.does_iff hover).mp hdoes).attempt]
  · obtain ⟨text, bytes, hrender, hencode, hw, hanswer⟩ := Job.run_eq_aborted_iff.mp hrun
    rw [h.render_eq hover] at hrender
    rw [h.writable_eq hover hrender] at hw hanswer
    have hraised : job.run s = .aborted e :=
      Job.run_eq_aborted_iff.mpr ⟨text, bytes, hrender, hencode, hw, hanswer⟩
    rw [hattempt]
    unfold Job.attempt
    rw [hraised]

/-! ### Places that jobs write -/

/-- Holds of a place at which one of the jobs writes a file, if it runs on the store. -/
def WrittenBy (s : Store) (jobs : List Job) (p : Place) : Prop :=
  ∃ job ∈ jobs, ∃ bytes, job.Does s (.written p bytes)

theorem WrittenBy.not_folder (h : WrittenBy s jobs p) : s.entry? p ≠ some .folder := by
  obtain ⟨job, _, bytes, hdoes⟩ := h
  exact hdoes.place.2.2

/-- Holds of jobs of which those that write at one place write the same there. -/
def Compatible (s : Store) (jobs : List Job) : Prop :=
  ∀ j ∈ jobs, ∀ k ∈ jobs, ∀ p a b, j.Does s (.written p a) → k.Does s (.written p b) → a = b

/-- Holds of a store to which everything was added that the jobs write. -/
structure Serves (s : Store) (jobs : List Job) (t : Store) : Prop where
  workingDir : t.workingDir = s.workingDir
  written : ∀ job ∈ jobs, ∀ p bytes, job.Does s (.written p bytes) →
    t.entry? p = some (.file bytes none)
  others : ∀ p, ¬ WrittenBy s jobs p → t.entry? p = s.entry? p

/-- Holds of two stores with the same files and folders, and the same folder that relative
    paths start from. -/
structure SameFiles (s t : Store) : Prop where
  workingDir : t.workingDir = s.workingDir
  entry : ∀ p, t.entry? p = s.entry? p

theorem Serves.sameFiles (h : Serves s jobs t) (h' : Serves s jobs t') : SameFiles t t' := by
  refine ⟨h'.workingDir.trans h.workingDir.symm, ?_⟩
  intro p
  by_cases hwritten : WrittenBy s jobs p
  · obtain ⟨job, hmem, bytes, hdoes⟩ := hwritten
    rw [h.written job hmem p bytes hdoes, h'.written job hmem p bytes hdoes]
  · rw [h.others p hwritten, h'.others p hwritten]

/-- What was written at a place is a file, whoever wrote it. -/
theorem Effect.entry?_apply (h : job.Does t effect) (p : Place) :
    (∃ bytes, effect = .written p bytes ∧ Store.entry? (effect.apply t) p = some (.file bytes none)) ∨
      (∀ bytes, effect ≠ .written p bytes) ∧ Store.entry? (effect.apply t) p = t.entry? p := by
  cases effect with
  | failed e =>
    right
    refine ⟨?_, rfl⟩
    intro bytes he
    cases he
  | written q bytes =>
    by_cases hq : q = p
    · subst hq
      left
      exact ⟨bytes, rfl, Store.entry?_put_self h.place.2.2⟩
    · right
      refine ⟨?_, Store.entry?_put_ne (Ne.symm hq)⟩
      intro other he
      exact hq (Effect.written.inj he).1

/-- An effect of one of the jobs leaves the store overlaid with what they write. -/
theorem overlays_apply (hover : Store.Overlays (WrittenBy s jobs) s t) (hmem : job ∈ jobs)
    (hdoes : job.Does s effect) : Store.Overlays (WrittenBy s jobs) s (effect.apply t) := by
  cases effect with
  | failed e => exact hover
  | written p bytes => exact hover.put ⟨job, hmem, bytes, hdoes⟩

/-! ### Runs of clear jobs -/

/-- **Each clear job of a run does what it would do at first.** -/
theorem Runs.overlay {all : List Job} (h : Runs t jobs effects t') (hsub : jobs ⊆ all)
    (hclear : ∀ job ∈ all, job.Clear s (WrittenBy s all))
    (hover : Store.Overlays (WrittenBy s all) s t) :
    List.Forall₂ (fun job effect => Job.Does s job effect) jobs effects ∧
      Store.Overlays (WrittenBy s all) s t' := by
  induction h with
  | nil t => exact ⟨.nil, hover⟩
  | @cons t t' job jobs effect effects hdoes _ ih =>
    have hmem : job ∈ all := hsub List.mem_cons_self
    have hdoes' := ((hclear job hmem).does_iff hover).mp hdoes
    have hmore : jobs ⊆ all := fun k hk => hsub (List.mem_cons_of_mem _ hk)
    obtain ⟨hrest, hlast⟩ := ih hmore (overlays_apply hover hmem hdoes')
    exact ⟨.cons hdoes' hrest, hlast⟩

/-! ### What a run of clear jobs leaves -/

theorem exists_of_forall₂ {α β : Type} {R : α → β → Prop} {xs : List α} {ys : List β} {x : α}
    (h : List.Forall₂ R xs ys) (hx : x ∈ xs) : ∃ y ∈ ys, R x y := by
  induction h with
  | nil => cases hx
  | @cons a b xs ys hab _ ih =>
    rcases List.mem_cons.mp hx with rfl | hx
    · exact ⟨b, List.mem_cons_self, hab⟩
    · obtain ⟨y, hy, hxy⟩ := ih hx
      exact ⟨y, List.mem_cons_of_mem _ hy, hxy⟩

/-- Each file that was written is one that a job writes at first. -/
theorem writes_of_mem (h : List.Forall₂ (fun job effect => Job.Does s job effect) jobs effects)
    (hmem : .written p bytes ∈ effects) : ∃ job ∈ jobs, job.Does s (.written p bytes) :=
  exists_of_forall₂ (R := fun effect job => Job.Does s job effect) h.flip hmem

/-- What was written last at a place is what all jobs write there. -/
theorem lastAt_of_compatible (hcompatible : Compatible s jobs) (hmem : job ∈ jobs)
    (hdoes : job.Does s (.written p bytes))
    (h : List.Forall₂ (fun job effect => Job.Does s job effect) jobs effects) :
    lastAt p effects = some bytes := by
  cases hlast : lastAt p effects with
  | none =>
    obtain ⟨effect, heffect, hdoes'⟩ := exists_of_forall₂ h hmem
    rw [← hdoes.unique hdoes'] at heffect
    exact absurd heffect (lastAt_eq_none_iff.mp hlast bytes)
  | some other =>
    obtain ⟨k, hk, hwrote⟩ := writes_of_mem h (mem_of_lastAt hlast)
    rw [hcompatible k hk job hmem p other bytes hwrote hdoes]

theorem lastAt_of_not_written (hnot : ¬ WrittenBy s jobs p)
    (h : List.Forall₂ (fun job effect => Job.Does s job effect) jobs effects) :
    lastAt p effects = none := by
  rw [lastAt_eq_none_iff]
  intro bytes hmem
  obtain ⟨job, hjob, hdoes⟩ := writes_of_mem h hmem
  exact hnot ⟨job, hjob, bytes, hdoes⟩

/-- After a run of compatible jobs everything is there that they write. -/
theorem Runs.serves (h : Runs t jobs effects t')
    (hdoes : List.Forall₂ (fun job effect => Job.Does s job effect) jobs effects)
    (hover : Store.Overlays (WrittenBy s jobs) s t)
    (hlast : Store.Overlays (WrittenBy s jobs) s t') (hcompatible : Compatible s jobs) :
    Serves s jobs t' := by
  constructor
  · exact hlast.workingDir
  · intro job hmem p bytes hwrites
    rw [h.entry?_eq p, lastAt_of_compatible hcompatible hmem hwrites hdoes]
    rfl
  · intro p hnot
    rw [h.entry?_eq p, lastAt_of_not_written hnot hdoes]
    exact hover.same p hnot

end Database

end ClangDb
