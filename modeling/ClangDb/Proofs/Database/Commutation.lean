import ClangDb.Proofs.Database.Clear
import Mathlib.Data.List.Pairwise

/-! # Jobs that commute

    Several workers take the jobs of a pass in an order that is not known, and
    rely on it that the order does not matter.  It does not if the jobs are
    independent: no two have paths to one place or one behind the other, and none
    is made from a file that one of them writes.  Then each job is clear of the
    places that the jobs write.

    The invariant of a pool says what the turns so far have done.  The verdicts
    are those that the jobs have on the store at the beginning, and what stands at
    a place is what a job that has run writes there, or else what stood there at
    the beginning.  When all jobs have run, nothing is left in it of the order.

    Key theorems:
    - `Pool.Consistent.turn`, `Pool.Consistent.turns`: the invariant,
    - `independent_of_names`: jobs that are independent by their names,
    - `Pool.commutes`: pools of independent jobs.
-/

namespace ClangDb

namespace Database

variable {s t : Store} {job : Job} {jobs : List Job} {pool : Pool} {p : Place}

/-! ### The invariant of a pool -/

/-- Holds of a pool whose jobs began on a store `t`, which differs from `s` at places that the
    jobs write. -/
structure Pool.Consistent (s t : Store) (jobs : List Job) (pool : Pool) : Prop where
  jobs_eq : pool.slots.map (·.job) = jobs
  overlays : Store.Overlays (WrittenBy s jobs) s pool.store
  /-- The verdicts are those on `s`. -/
  verdicts : ∀ slot ∈ pool.slots, ∀ v, slot.verdict = some v → v = (slot.job.attempt s).2
  /-- What stands at a place was written there by a job that has run, or none of these has
      written there. -/
  entries : ∀ p,
    (∃ slot ∈ pool.slots, slot.verdict.isSome = true ∧ ∃ bytes,
      slot.job.Does s (.written p bytes) ∧ pool.store.entry? p = some (.file bytes none)) ∨
    (∀ slot ∈ pool.slots, slot.verdict.isSome = true → ∀ bytes,
      ¬ slot.job.Does s (.written p bytes)) ∧ pool.store.entry? p = t.entry? p

theorem Pool.Consistent.start (hover : Store.Overlays (WrittenBy s jobs) s t) :
    Pool.Consistent s t jobs (Pool.start t jobs) := by
  have hnone : ∀ slot ∈ (Pool.start t jobs).slots, slot.verdict = none := by
    intro slot hslot
    obtain ⟨job, _, rfl⟩ := List.mem_map.mp hslot
    rfl
  constructor
  · exact Pool.jobs_start t jobs
  · exact hover
  · intro slot hslot v hv
    rw [hnone slot hslot] at hv
    cases hv
  · intro p
    right
    refine ⟨?_, rfl⟩
    intro slot hslot hsome
    rw [hnone slot hslot] at hsome
    cases hsome

/-- **A turn keeps the invariant** if all jobs are clear of the places that they write. -/
theorem Pool.Consistent.turn (h : Pool.Consistent s t jobs pool)
    (hclear : ∀ job ∈ jobs, job.Clear s (WrittenBy s jobs)) (i : Nat) :
    Pool.Consistent s t jobs (pool.turn i) := by
  rcases pool.turn_cases i with hsame | ⟨before, job, after, _, hslots, hturn⟩
  · rw [hsame]
    exact h
  · have hjobs := h.jobs_eq
    rw [hslots] at hjobs
    have hmem : job ∈ jobs := by
      rw [← hjobs]
      simp
    -- the job does what it would do at first, and has the verdict that it would have
    have hverdict := (hclear job hmem).verdict_eq h.overlays
    have hold : ∀ slot ∈ before ++ after, slot ∈ pool.slots := by
      intro slot hslot
      rw [hslots]
      rcases List.mem_append.mp hslot with hslot | hslot
      · exact List.mem_append_left _ hslot
      · exact List.mem_append_right _ (List.mem_cons_of_mem _ hslot)
    have hsplit : ∀ slot ∈ before ++ ⟨job, some (job.attempt pool.store).2⟩ :: after,
        slot = ⟨job, some (job.attempt pool.store).2⟩ ∨ slot ∈ before ++ after := by
      intro slot hslot
      rcases List.mem_append.mp hslot with hslot | hslot
      · exact .inr (List.mem_append_left _ hslot)
      · rcases List.mem_cons.mp hslot with he | hslot
        · exact .inl he
        · exact .inr (List.mem_append_right _ hslot)
    have hstill : ∀ slot ∈ pool.slots, slot.verdict.isSome = true →
        slot ∈ before ++ ⟨job, some (job.attempt pool.store).2⟩ :: after := by
      intro slot hslot hsome
      rw [hslots] at hslot
      rcases List.mem_append.mp hslot with hslot | hslot
      · exact List.mem_append_left _ hslot
      · rcases List.mem_cons.mp hslot with rfl | hslot
        · cases hsome
        · exact List.mem_append_right _ (List.mem_cons_of_mem _ hslot)
    rw [hturn]
    constructor
    · rw [← hjobs]
      simp
    · rcases Job.attempt_cases pool.store job with ⟨effect, hdoes, hattempt⟩ | ⟨e, _, hattempt⟩
      · rw [hattempt]
        exact overlays_apply h.overlays hmem (((hclear job hmem).does_iff h.overlays).mp hdoes)
      · rw [hattempt]
        exact h.overlays
    · intro slot hslot v hv
      rcases hsplit slot hslot with rfl | hslot
      · rw [← hverdict]
        exact (Option.some.inj hv).symm
      · exact h.verdicts slot (hold slot hslot) v hv
    · intro p
      rcases Job.attempt_cases pool.store job with ⟨effect, hdoes, hattempt⟩ | ⟨e, hrun, hattempt⟩
      · have hdoes' := ((hclear job hmem).does_iff h.overlays).mp hdoes
        rw [hattempt] at hstill ⊢
        rcases Effect.entry?_apply hdoes p with ⟨bytes, rfl, hentry⟩ | ⟨hne, hentry⟩
        · -- the job has just written there
          left
          exact ⟨⟨job, some (.ok (Effect.written p bytes).error?)⟩, by simp, rfl, bytes, hdoes',
            hentry⟩
        · rcases h.entries p with ⟨slot, hslot, hsome, bytes, hwrote, hplace⟩ | ⟨hnone, hplace⟩
          · left
            exact ⟨slot, hstill slot hslot hsome, hsome, bytes, hwrote, hentry.trans hplace⟩
          · right
            refine ⟨?_, hentry.trans hplace⟩
            intro slot hslot hsome bytes hwrote
            rw [hattempt] at hsplit
            rcases hsplit slot hslot with rfl | hslot
            · exact hne bytes (hdoes'.unique hwrote)
            · exact hnone slot (hold slot hslot) hsome bytes hwrote
      · -- a job that raises writes nothing
        rw [hattempt] at hstill hsplit ⊢
        rcases h.entries p with ⟨slot, hslot, hsome, bytes, hwrote, hplace⟩ | ⟨hnone, hplace⟩
        · left
          exact ⟨slot, hstill slot hslot hsome, hsome, bytes, hwrote, hplace⟩
        · right
          refine ⟨?_, hplace⟩
          intro slot hslot hsome bytes hwrote
          rcases hsplit slot hslot with rfl | hslot
          · rw [hwrote.attempt, hattempt] at hverdict
            cases hverdict
          · exact hnone slot (hold slot hslot) hsome bytes hwrote

/-- **Turns keep the invariant**, in any order. -/
theorem Pool.Consistent.turns (h : Pool.Consistent s t jobs pool)
    (hclear : ∀ job ∈ jobs, job.Clear s (WrittenBy s jobs)) (order : List Nat) :
    Pool.Consistent s t jobs (pool.turns order) := by
  induction order generalizing pool with
  | nil => exact h
  | cons i order ih => exact ih (h.turn hclear i)

/-- When all jobs have run, each has the verdict that it has at first. -/
theorem Pool.Consistent.slots_eq (h : Pool.Consistent s t jobs pool)
    (hall : ∀ slot ∈ pool.slots, slot.verdict.isSome = true) :
    pool.slots = jobs.map fun job => ⟨job, some (job.attempt s).2⟩ := by
  rw [← h.jobs_eq, List.map_map]
  have hself : pool.slots.map (fun slot => (⟨slot.job, some (slot.job.attempt s).2⟩ : Slot)) =
      pool.slots.map id := by
    apply List.map_congr_left
    intro slot hslot
    obtain ⟨v, hv⟩ := Option.isSome_iff_exists.mp (hall slot hslot)
    rw [← h.verdicts slot hslot v hv, ← hv]
    rfl
  exact (hself.trans (List.map_id _)).symm

/-- When all jobs have run, everything is there that they write. -/
theorem Pool.Consistent.serves (h : Pool.Consistent s t jobs pool)
    (hover : Store.Overlays (WrittenBy s jobs) s t) (hcompatible : Compatible s jobs)
    (hall : ∀ slot ∈ pool.slots, slot.verdict.isSome = true) : Serves s jobs pool.store := by
  have hjob : ∀ slot ∈ pool.slots, slot.job ∈ jobs := by
    intro slot hslot
    rw [← h.jobs_eq]
    exact List.mem_map_of_mem hslot
  constructor
  · exact h.overlays.workingDir
  · intro job hmem p bytes hdoes
    rcases h.entries p with ⟨slot, hslot, _, other, hwrote, hplace⟩ | ⟨hnone, _⟩
    · rw [hcompatible job hmem slot.job (hjob slot hslot) p bytes other hdoes hwrote]
      exact hplace
    · rw [← h.jobs_eq] at hmem
      obtain ⟨slot, hslot, rfl⟩ := List.mem_map.mp hmem
      exact absurd hdoes (hnone slot hslot (hall slot hslot) bytes)
  · intro p hnot
    rcases h.entries p with ⟨slot, hslot, _, bytes, hwrote, _⟩ | ⟨_, hplace⟩
    · exact absurd ⟨slot.job, hjob slot hslot, bytes, hwrote⟩ hnot
    · exact hplace.trans (hover.same p hnot)

/-! ### Independent jobs -/

/-- Holds of two jobs whose paths lead to two places, neither of them through the place of
    the other. -/
structure Job.Apart (s : Store) (j k : Job) : Prop where
  paths : ∀ p, s.locate j.path = .ok p → s.locate k.path ≠ .ok p
  first : ∀ p, s.locate j.path = .ok p → ¬ s.LeadsThrough k.path p
  second : ∀ p, s.locate k.path = .ok p → ¬ s.LeadsThrough j.path p

instance : Std.Symm (Job.Apart s) where
  symm _ _ h := ⟨fun p hk hj => h.paths p hj hk, h.second, h.first⟩

/-- Holds of jobs that have nothing to do with each other on a store: no two of them have paths
    to one place or one behind the other, and none is made from a file to which the path of
    one of them leads. -/
structure Independent (s : Store) (jobs : List Job) : Prop where
  apart : jobs.Pairwise (Job.Apart s)
  sources : ∀ j ∈ jobs, ∀ k ∈ jobs, ∀ p, s.locate k.path = .ok p → ¬ j.IsFrom s p

/-- A path that leads to a place leads through folders on its way. -/
theorem folder_of_leadsThrough {path : Text} {q : Place} (h : s.locate path = .ok q)
    (hthrough : s.LeadsThrough path p) : s.entry? p = some .folder := by
  obtain ⟨before, after, hnames, hne, hfollow⟩ := hthrough
  have hall := Store.follow_of_locate h
  rw [hnames] at hall
  rcases Store.folder_of_follow hall hfollow with hfolder | ⟨hnil, _⟩
  · exact hfolder
  · exact absurd hnil hne

/-- Independent jobs are clear of the places that they write. -/
theorem Independent.clear (h : Independent s jobs) :
    ∀ job ∈ jobs, job.Clear s (WrittenBy s jobs) := by
  intro job hmem
  constructor
  · intro p hfrom hwritten
    obtain ⟨k, hk, bytes, hdoes⟩ := hwritten
    exact h.sources job hmem k hk p hdoes.place.2.1 hfrom
  · intro text _ p hthrough hwritten
    obtain ⟨k, hk, bytes, hdoes⟩ := hwritten
    obtain ⟨_, hlocate, hfolder⟩ := hdoes.place
    by_cases he : k = job
    · -- a job that passes its own place finds a folder there
      rw [he] at hlocate
      exact hfolder (folder_of_leadsThrough hlocate hthrough)
    · exact (h.apart.forall hk hmem he).first p hlocate hthrough

/-- Independent jobs are compatible, since no two write at one place. -/
theorem Independent.compatible (h : Independent s jobs) : Compatible s jobs := by
  intro j hj k hk p a b ha hb
  by_cases he : j = k
  · subst he
    exact (Effect.written.inj (ha.unique hb)).2
  · exact absurd hb.place.2.1 ((h.apart.forall hj hk he).paths p ha.place.2.1)

/-- The path of the response file that a content is made from. -/
def Content.source? : Content → Option Text
  | .arguments _ => none
  | .conversion source _ _ => some source

/-- **Jobs are independent if their names are**: all paths are absolute or all are relative, and
    they have no dots, so that a file has one path only; no path of a job is the path of
    another or of a response file, and none goes on behind another. -/
theorem independent_of_names (absolute : Bool)
    (hkind : ∀ job ∈ jobs, ∀ path ∈ job.path :: job.content.source?.toList,
      path.startsWith "/" = absolute ∧ Store.Plain (Store.namesOn path))
    (hpaths : jobs.Pairwise fun j k => ¬ Store.namesOn j.path <+: Store.namesOn k.path ∧
      ¬ Store.namesOn k.path <+: Store.namesOn j.path)
    (hsources : ∀ j ∈ jobs, ∀ k ∈ jobs, ∀ source ∈ j.content.source?,
      Store.namesOn source ≠ Store.namesOn k.path) : Independent s jobs := by
  -- all paths start at one place, and lead down from there
  obtain ⟨start, hstart⟩ : ∃ start, ∀ path : Text, path.startsWith "/" = absolute →
      s.origin path = start := by
    refine ⟨if absolute then [] else s.workingDir, ?_⟩
    intro path hpath
    unfold Store.origin
    rw [hpath]
  have hplace : ∀ {path : Text} {p : Place}, path.startsWith "/" = absolute →
      Store.Plain (Store.namesOn path) → s.locate path = .ok p →
      p = start ++ Store.namesOn path := by
    intro path p habsolute hplain hlocate
    rw [← hstart path habsolute]
    exact Store.eq_of_follow hplain (Store.follow_of_locate hlocate)
  have hown : ∀ job ∈ jobs, job.path.startsWith "/" = absolute ∧
      Store.Plain (Store.namesOn job.path) :=
    fun job hmem => hkind job hmem job.path List.mem_cons_self
  have hbehind : ∀ j ∈ jobs, ∀ k ∈ jobs, ∀ p, s.locate j.path = .ok p →
      s.LeadsThrough k.path p → Store.namesOn j.path <+: Store.namesOn k.path := by
    intro j hj k hk p hlocate hthrough
    obtain ⟨before, after, hnames, _, hfollow⟩ := hthrough
    have hplain : Store.Plain before := by
      intro name hname
      apply (hown k hk).2
      rw [hnames]
      exact List.mem_append_left _ hname
    have hthere := hplace (hown j hj).1 (hown j hj).2 hlocate
    rw [hstart k.path (hown k hk).1] at hfollow
    rw [Store.eq_of_follow hplain hfollow, List.append_cancel_left_eq] at hthere
    rw [← hthere, hnames]
    exact List.prefix_append _ _
  constructor
  · apply hpaths.imp_of_mem
    intro j k hj hk hne
    constructor
    · intro p hjp hkp
      have hsame := (hplace (hown j hj).1 (hown j hj).2 hjp).symm.trans
        (hplace (hown k hk).1 (hown k hk).2 hkp)
      rw [List.append_cancel_left_eq] at hsame
      exact hne.1 (hsame ▸ List.prefix_refl _)
    · intro p hjp hthrough
      exact hne.1 (hbehind j hj k hk p hjp hthrough)
    · intro p hkp hthrough
      exact hne.2 (hbehind k hk j hj p hkp hthrough)
  · intro j hj k hk p hlocate hisFrom
    obtain ⟨source, engineDir, dialect, hcontent, hfrom⟩ := hisFrom
    have hsource : source ∈ j.content.source? := by
      rw [hcontent]
      rfl
    obtain ⟨habsolute, hplain⟩ := hkind j hj source
      (List.mem_cons_of_mem _ (Option.mem_toList.mpr hsource))
    have hsame := (hplace habsolute hplain hfrom).symm.trans
      (hplace (hown k hk).1 (hown k hk).2 hlocate)
    rw [List.append_cancel_left_eq] at hsame
    exact hsources j hj k hk source hsource hsame

/-! ### Any order of turns -/

/-- Holds of a pool whose jobs have come to the same as they do one after another. -/
structure Pool.MatchesSerial (s : Store) (jobs : List Job) (pool : Pool) : Prop where
  /-- The files are those that the jobs leave when they take their turns in order. -/
  store : SameFiles ((Pool.start s jobs).turns (List.range jobs.length)).store pool.store
  /-- Each job has returned what it returns then. -/
  slots : pool.slots = ((Pool.start s jobs).turns (List.range jobs.length)).slots
  /-- What is counted of the verdicts is what a serial run comes to. -/
  collected : collect (pool.slots.map (·.verdict)) = some (runJobs s jobs).2
  /-- The files are those of a serial run that comes to its end. -/
  serial : ∀ tally, (runJobs s jobs).2 = .ok tally → SameFiles (runJobs s jobs).1 pool.store

/-- What is counted of the verdicts that clear jobs have at first is what a serial run comes
    to, whatever they have written before. -/
theorem collect_eq_runJobs (hclear : ∀ job ∈ jobs, job.Clear s (WrittenBy s jobs))
    (hover : Store.Overlays (WrittenBy s jobs) s t) :
    collect (jobs.map fun job => some (job.attempt s).2) = some (runJobs t jobs).2 := by
  rcases runJobs_spec t jobs with ⟨s', effects, hruns, heq⟩ |
    ⟨before, job, after, effects, turn, e, hjobs, hruns, haborted, heq⟩
  · have hdoes := (hruns.overlay (List.Subset.refl jobs) hclear hover).1
    rw [collect_of_forall₂ hdoes, heq]
  · have hsub : before ⊆ jobs := by
      rw [hjobs]
      exact List.subset_append_left _ _
    have hmem : job ∈ jobs := by
      rw [hjobs]
      simp
    obtain ⟨hdoes, hturn⟩ := hruns.overlay hsub hclear hover
    -- the job that ends the run raises at first as it does at its turn
    have hverdict : (job.attempt s).2 = .error e := by
      rw [← (hclear job hmem).verdict_eq hturn]
      unfold Job.attempt
      rw [haborted]
    rw [heq, hjobs]
    exact collect_of_aborted hdoes hverdict after

/-- **A shared run of clear jobs comes to the verdicts that they have at first**, whatever they
    have written before. -/
theorem runShared_eq_collect (hclear : ∀ job ∈ jobs, job.Clear s (WrittenBy s jobs))
    (hover : Store.Overlays (WrittenBy s jobs) s t) {order : List Nat}
    (hall : ∀ i, i < jobs.length → i ∈ order) (workers : Int) :
    (runShared workers order t jobs).2 = collect (jobs.map fun job => some (job.attempt s).2) := by
  unfold runShared
  by_cases hshared : 1 < workers ∧ 1 < jobs.length
  · rw [if_pos hshared]
    have hconsistent := (Pool.Consistent.start hover).turns hclear order
    show collect (((Pool.start t jobs).turns order).slots.map (·.verdict)) = _
    rw [hconsistent.slots_eq (Pool.isSome_of_turns hall), List.map_map]
    rfl
  · rw [if_neg hshared]
    exact (collect_eq_runJobs hclear hover).symm

/-- **What a shared run leaves** if it comes to its end: the store differs at the places that the
    jobs write, where everything is that compatible jobs write. -/
theorem runShared_spec (hclear : ∀ job ∈ jobs, job.Clear s (WrittenBy s jobs))
    (hover : Store.Overlays (WrittenBy s jobs) s t) {workers : Int} {order : List Nat}
    {t' : Store} {tally : Tally} (h : runShared workers order t jobs = (t', some (.ok tally))) :
    collect (jobs.map fun job => some (job.attempt s).2) = some (.ok tally) ∧
      Store.Overlays (WrittenBy s jobs) s t' ∧ (Compatible s jobs → Serves s jobs t') := by
  by_cases hshared : 1 < workers ∧ 1 < jobs.length
  · unfold runShared at h
    rw [if_pos hshared] at h
    obtain ⟨rfl, hcollect⟩ := Prod.mk.inj h
    have hconsistent := (Pool.Consistent.start hover).turns hclear order
    -- the count has waited for all jobs
    have hsome : ∀ slot ∈ ((Pool.start t jobs).turns order).slots, slot.verdict.isSome = true := by
      intro slot hslot
      exact isSome_of_collect hcollect _ (List.mem_map_of_mem hslot)
    refine ⟨?_, hconsistent.overlays, fun hcompatible =>
      hconsistent.serves hover hcompatible hsome⟩
    rw [hconsistent.slots_eq hsome, List.map_map] at hcollect
    exact hcollect
  · obtain ⟨effects, hruns, rfl⟩ := runs_of_runShared hshared h
    obtain ⟨hdoes, hlast⟩ := hruns.overlay (List.Subset.refl jobs) hclear hover
    exact ⟨collect_of_forall₂ hdoes, hlast, fun hcompatible =>
      hruns.serves hdoes hover hlast hcompatible⟩

/-- **Independent jobs commute**: in whatever order they take their turns, the files and what
    each job returns are the same, and so is what is counted of a run with any number of
    workers. -/
theorem Pool.commutes (h : Independent s jobs) {order : List Nat}
    (hall : ∀ i, i < jobs.length → i ∈ order) :
    Pool.MatchesSerial s jobs ((Pool.start s jobs).turns order) ∧
      ∀ workers, (runShared workers order s jobs).2 = some (runJobs s jobs).2 := by
  have hover : Store.Overlays (WrittenBy s jobs) s s :=
    Store.Overlays.refl fun p hp => hp.not_folder
  have hpool : ∀ turns : List Nat, (∀ i, i < jobs.length → i ∈ turns) →
      Serves s jobs ((Pool.start s jobs).turns turns).store ∧
        ((Pool.start s jobs).turns turns).slots =
          jobs.map fun job => ⟨job, some (job.attempt s).2⟩ := by
    intro turns hturns
    have hconsistent := (Pool.Consistent.start hover).turns h.clear turns
    have hrun := Pool.isSome_of_turns (s := s) hturns
    exact ⟨hconsistent.serves hover h.compatible hrun, hconsistent.slots_eq hrun⟩
  obtain ⟨hserves, hslots⟩ := hpool order hall
  obtain ⟨hserves', hslots'⟩ := hpool (List.range jobs.length) fun i hi => List.mem_range.mpr hi
  have hcollect : collect (((Pool.start s jobs).turns order).slots.map (·.verdict)) =
      some (runJobs s jobs).2 := by
    rw [hslots, List.map_map]
    exact collect_eq_runJobs h.clear hover
  refine ⟨⟨hserves'.sameFiles hserves, hslots.trans hslots'.symm, hcollect, ?_⟩, ?_⟩
  · intro tally htally
    obtain ⟨effects, hruns, _⟩ := runJobs_eq_ok_iff.mp (Prod.ext rfl htally :
      runJobs s jobs = ((runJobs s jobs).1, .ok tally))
    obtain ⟨hdoes, hlast⟩ := hruns.overlay (List.Subset.refl jobs) h.clear hover
    exact (hruns.serves hdoes hover hlast h.compatible).sameFiles hserves
  · intro workers
    rw [runShared_eq_collect h.clear hover hall, collect_eq_runJobs h.clear hover]

/-- A store with a folder and a response file. -/
def poolStore : Store :=
  ⟨[], [(["out"], .folder), (["foo"], .file (Utf8.bytesOf "/DA\n") none)]⟩

/-- Jobs of which two are done, one misses its response file and one the folder of its path. -/
def poolJobs : List Job := [
  ⟨"out/a.cpp.rsp", "a.cpp", .arguments " -DA\","⟩,
  ⟨"foo.rsp", "b.cpp", .conversion "foo" "/engine" .clang⟩,
  ⟨"bar.rsp", "c.cpp", .conversion "bar" "/engine" .clang⟩,
  ⟨"none/d.cpp.rsp", "d.cpp", .arguments " -DD\","⟩]

/-- Taken in another order, the jobs of the sample leave the same files and are counted alike. -/
theorem Pool.commutes_sample :
    Independent poolStore poolJobs ∧
      Pool.MatchesSerial poolStore poolJobs ((Pool.start poolStore poolJobs).turns [3, 1, 0, 2]) ∧
      (runShared 2 [3, 1, 0, 2] poolStore poolJobs).2 = some (runJobs poolStore poolJobs).2 ∧
      (runJobs poolStore poolJobs).2.toOption.map
        (fun tally => (tally.written, tally.errors.length)) = some (2, 2) := by
  have hindependent : Independent poolStore poolJobs := by
    apply independent_of_names false
    · decide +kernel
    · decide +kernel
    · decide +kernel
  have hall : ∀ i, i < poolJobs.length → i ∈ [3, 1, 0, 2] := by decide
  obtain ⟨hserial, hshared⟩ := Pool.commutes hindependent hall
  exact ⟨hindependent, hserial, hshared 2, by decide +kernel⟩

end Database

end ClangDb
