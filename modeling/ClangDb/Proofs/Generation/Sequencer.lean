import ClangDb.Generation.Sequencer
import Mathlib.Data.List.Infix
import Mathlib.Data.List.Nodup

/-! # The order of stages

    A sequencer can be told anything at any time: to start again, that a stage has
    ended which is not running, or one that is no part of the run.  `Stands` says
    where a run can be: before its first stage, within one of its stages or after
    the last of them.  What it is told either moves the run on from one of these
    to the next, or is refused and changes nothing at all.

    So the stages are handed out in their order, each once, and a run that has
    failed or has completed stays where it is.

    Key theorems:
    - `Stands.handle`: one event,
    - `stands_after`: any events,
    - `orderly_after`: what can be relied on at every point of a run.
-/

namespace ClangDb

namespace Sequencer

variable {q : Sequencer} {stages handed done rest : List Stage} {stage : Stage}
  {front back : List (Stage × Progress)} {p p' : Progress}

/-! ### States -/

/-- The stages of some states. -/
def keys (states : List (Stage × Progress)) : List Stage := states.map Prod.fst

@[simp] theorem keys_append : keys (front ++ back) = keys front ++ keys back :=
  List.map_append

@[simp] theorem keys_cons : keys ((stage, p) :: back) = stage :: keys back := rfl

/-- Stages that are all in one state. -/
def allIn (p : Progress) (stages : List Stage) : List (Stage × Progress) := stages.map (·, p)

@[simp] theorem keys_allIn (stages : List Stage) : keys (allIn p stages) = stages := by
  simp [keys, allIn, Function.comp_def]

theorem find_of_not_mem (h : stage ∉ keys front) : find stage (front ++ back) = find stage back := by
  induction front with
  | nil => rfl
  | cons head front ih =>
    obtain ⟨first, progress⟩ := head
    rw [keys_cons, List.mem_cons, not_or] at h
    show (if first = stage then some progress else find stage (front ++ back)) = _
    rw [if_neg (Ne.symm h.1), ih h.2]

theorem find_none (h : stage ∉ keys front) : find stage front = none := by
  have hfind : find stage (front ++ []) = find stage [] := find_of_not_mem h
  rwa [List.append_nil] at hfind

/-- The state of a stage that comes first. -/
theorem find_cons : find stage ((stage, p) :: back) = some p := by
  show (if stage = stage then some p else find stage back) = some p
  rw [if_pos rfl]

theorem find_allIn (h : stage ∈ stages) : find stage (allIn p stages ++ back) = some p := by
  induction stages with
  | nil => cases h
  | cons first stages ih =>
    show (if first = stage then some p else find stage (allIn p stages ++ back)) = some p
    by_cases hfirst : first = stage
    · rw [if_pos hfirst]
    · rw [if_neg hfirst]
      rcases List.mem_cons.mp h with h | h
      · exact absurd h.symm hfirst
      · exact ih h

/-- Only the state of the stage changes. -/
theorem setState_append (h : stage ∉ keys front) :
    setState stage p (front ++ (stage, p') :: back) = front ++ (stage, p) :: back := by
  induction front with
  | nil =>
    show (if stage = stage then (stage, p) :: back else _) = _
    rw [if_pos rfl]
    rfl
  | cons head front ih =>
    obtain ⟨first, progress⟩ := head
    rw [keys_cons, List.mem_cons, not_or] at h
    show (if first = stage then _
      else (first, progress) :: setState stage p (front ++ (stage, p') :: back)) = _
    rw [if_neg (Ne.symm h.1), ih h.2]
    rfl

/-- A state that is new comes last. -/
theorem setState_of_not_mem (h : stage ∉ keys front) :
    setState stage p front = front ++ [(stage, p)] := by
  induction front with
  | nil => rfl
  | cons head front ih =>
    obtain ⟨first, progress⟩ := head
    rw [keys_cons, List.mem_cons, not_or] at h
    show (if first = stage then _ else (first, progress) :: setState stage p front) = _
    rw [if_neg (Ne.symm h.1), ih h.2]
    rfl

/-- Scheduling stages that are not there yet. -/
theorem foldl_mark (hnodup : stages.Nodup) (hnew : ∀ s ∈ stages, s ∉ keys q.states) :
    stages.foldl (fun q s => q.mark s p) q = { q with states := q.states ++ allIn p stages } := by
  induction stages generalizing q with
  | nil =>
    show q = { q with states := q.states ++ [] }
    rw [List.append_nil]
  | cons first stages ih =>
    obtain ⟨hfirst, hnodup⟩ := List.nodup_cons.mp hnodup
    have hmark : q.mark first p = { q with states := q.states ++ [(first, p)] } := by
      show { q with states := setState first p q.states } = _
      rw [setState_of_not_mem (hnew first List.mem_cons_self)]
    rw [List.foldl_cons, hmark, ih hnodup]
    · show { q with states := (q.states ++ [(first, p)]) ++ allIn p stages } = _
      rw [List.append_assoc]
      rfl
    · intro s hs hmem
      rw [keys_append, List.mem_append] at hmem
      rcases hmem with hmem | hmem
      · exact hnew s (List.mem_cons_of_mem _ hs) hmem
      · obtain rfl := List.mem_singleton.mp hmem
        exact hfirst hs

theorem after?_append (h : stage ∉ done) : after? stage (done ++ stage :: rest) = some rest := by
  induction done with
  | nil =>
    show (if stage = stage then some rest else _) = some rest
    rw [if_pos rfl]
  | cons first done ih =>
    rw [List.mem_cons, not_or] at h
    show (if first = stage then _ else after? stage (done ++ stage :: rest)) = some rest
    rw [if_neg (Ne.symm h.1), ih h.2]

/-! ### Where a run stands -/

/-- Within a stage: those before it have completed and those after it are to come. -/
def within (done : List Stage) (stage : Stage) (p : Progress) (rest : List Stage) : Sequencer where
  stages := done ++ stage :: rest
  states := allIn .completed done ++ (stage, p) :: allIn .scheduled rest
  current := some stage

/-- After the last stage. -/
def finished (stages : List Stage) : Sequencer where
  stages := stages
  states := allIn .completed stages ++ [(.final, .completed)]
  current := some .final

/-- Holds of a run over stages of which some were handed out. -/
inductive Stands (stages : List Stage) : Sequencer → List Stage → Prop where
  | idle : Stands stages ⟨stages, [], none⟩ []
  | within {done rest : List Stage} {stage : Stage} {p : Progress} :
      stages = done ++ stage :: rest → p = .inProgress ∨ p = .failed →
      Stands stages (within done stage p rest) (done ++ [stage])
  | finished : Stands stages (finished stages) stages

/-- Holds of stages that a run can have: there are some, none comes twice, and the end of the
    run is none of them. -/
structure Proper (stages : List Stage) : Prop where
  ne_nil : stages ≠ []
  nodup : stages.Nodup
  final : .final ∉ stages

theorem proper_ofParts : ∀ includeDatabase includeHeaders,
    Proper (ofParts includeDatabase includeHeaders).stages := by
  have hproper : ∀ includeDatabase includeHeaders,
      (ofParts includeDatabase includeHeaders).stages ≠ [] ∧
        (ofParts includeDatabase includeHeaders).stages.Nodup ∧
        .final ∉ (ofParts includeDatabase includeHeaders).stages := by decide
  intro includeDatabase includeHeaders
  obtain ⟨hne, hnodup, hfinal⟩ := hproper includeDatabase includeHeaders
  exact ⟨hne, hnodup, hfinal⟩

/-- A stage of a run is not among those before it, nor among those after it. -/
theorem Proper.split (h : Proper (done ++ stage :: rest)) :
    stage ∉ done ∧ stage ∉ rest ∧ stage ≠ .final ∧ (∀ s ∈ rest, s ∉ done ∧ s ≠ stage) := by
  have hnodup := h.nodup
  rw [List.nodup_append, List.nodup_cons] at hnodup
  obtain ⟨_, ⟨hrest, _⟩, hdisjoint⟩ := hnodup
  refine ⟨?_, hrest, ?_, ?_⟩
  · intro hmem
    exact hdisjoint stage hmem stage List.mem_cons_self rfl
  · intro hfinal
    exact h.final (by simp [hfinal])
  · intro s hs
    refine ⟨?_, ?_⟩
    · intro hmem
      exact hdisjoint s hmem s (List.mem_cons_of_mem _ hs) rfl
    · intro heq
      exact hrest (heq ▸ hs)

/-- The end of a run has no state within a stage. -/
theorem Proper.final_not_mem (h : Proper (done ++ stage :: rest)) :
    .final ∉ keys (within done stage p rest).states := by
  intro hmem
  apply h.final
  simpa [within] using hmem

/-! ### One event -/

/-- What a sequencer can be told. -/
inductive Event where
  | start
  | exited (stage : Stage) (code : Int)
  deriving DecidableEq, Repr

/-- The move of an event. -/
def handle (q : Sequencer) : Event → Move
  | .start => q.start
  | .exited stage code => q.notify stage code

/-- The stage that a move hands out. -/
def Move.handedOut (move : Move) : List Stage :=
  match move.answer with
  | .ok (some stage) => [stage]
  | _ => []

/-- Holds of a move that is refused and changes nothing, for a reason other than that a stage
    of the run is not found among its stages. -/
def Refuses (q : Sequencer) (move : Move) : Prop :=
  ∃ e, move = q.refuse e ∧ ∀ stage, e ≠ .notIncluded stage

theorem refuses_start {current : Stage} (h : q.current = some current) :
    q.Refuses (q.handle .start) := by
  refine ⟨.alreadyStarted current, ?_, ?_⟩
  · show q.start = _
    unfold start
    rw [h]
  · intro stage he
    cases he

theorem refuses_of_ne {code : Int} (h : q.current ≠ some stage) :
    q.Refuses (q.handle (.exited stage code)) := by
  refine ⟨.notCurrent stage q.current, ?_, ?_⟩
  · show q.notify stage code = _
    unfold notify
    rw [if_pos h]
  · intro other he
    cases he

theorem refuses_of_progress {code : Int} (h : q.current = some stage)
    (hstate : q.stateOf stage ≠ some .inProgress) :
    q.Refuses (q.handle (.exited stage code)) := by
  refine ⟨.notInProgress stage, ?_, ?_⟩
  · show q.notify stage code = _
    unfold notify
    rw [if_neg (not_not.mpr h), if_pos hstate]
  · intro other he
    cases he

/-- What is begun is in progress and current. -/
theorem begin_of_none (h : q.blocker? stage = none) :
    ∃ records, q.begin stage =
      ⟨⟨q.stages, setState stage .inProgress q.states, some stage⟩, .ok (some stage), records⟩ := by
  unfold begin
  rw [h]
  exact ⟨_, rfl⟩

/-- A stage in progress fails with a code other than zero. -/
theorem notify_of_ne {code : Int} (hcurrent : q.current = some stage)
    (hstate : q.stateOf stage = some .inProgress) (hcode : code ≠ 0) :
    ∃ records, q.notify stage code = ⟨q.mark stage .failed, .ok none, records⟩ := by
  unfold notify
  rw [if_neg (not_not.mpr hcurrent), if_neg (not_not.mpr hstate), if_pos hcode]
  exact ⟨_, rfl⟩

/-- A stage in progress completes with the code zero, and the next one is begun. -/
theorem notify_zero_of_next {next : Stage} (hcurrent : q.current = some stage)
    (hstate : q.stateOf stage = some .inProgress)
    (hafter : after? stage q.stages = some (next :: rest)) :
    q.notify stage 0 = (q.mark stage .completed).begin next := by
  have hmark : after? stage (q.mark stage .completed).stages = some (next :: rest) := hafter
  unfold notify
  rw [if_neg (not_not.mpr hcurrent), if_neg (not_not.mpr hstate), if_neg (not_not.mpr rfl)]
  simp only [hmark]

/-- With the last stage the run completes. -/
theorem notify_zero_of_last (hcurrent : q.current = some stage)
    (hstate : q.stateOf stage = some .inProgress) (hafter : after? stage q.stages = some []) :
    q.notify stage 0 = ⟨⟨q.stages, setState .final .completed (setState stage .completed q.states),
      some .final⟩, .ok none, []⟩ := by
  have hmark : after? stage (q.mark stage .completed).stages = some [] := hafter
  unfold notify
  rw [if_neg (not_not.mpr hcurrent), if_neg (not_not.mpr hstate), if_neg (not_not.mpr rfl)]
  simp only [hmark]
  rfl

/-- The first stage is begun, and the others are scheduled. -/
theorem start_idle (h : Proper (stage :: rest)) :
    ∃ records, start ⟨stage :: rest, [], none⟩ =
      ⟨within [] stage .inProgress rest, .ok (some stage), records⟩ := by
  -- all stages are scheduled first, and nothing stands before the first of them
  have hscheduled : (stage :: rest).foldl (fun q s => q.mark s .scheduled)
      (⟨stage :: rest, [], none⟩ : Sequencer) =
        ⟨stage :: rest, allIn .scheduled (stage :: rest), none⟩ := by
    rw [foldl_mark h.nodup]
    · rfl
    · intro s _ hmem
      cases hmem
  have hblocker : (⟨stage :: rest, allIn .scheduled (stage :: rest), none⟩ : Sequencer).blocker?
      stage = none := rfl
  obtain ⟨records, hbegin⟩ := begin_of_none hblocker
  refine ⟨records, ?_⟩
  show ((stage :: rest).foldl (fun (q : Sequencer) s => q.mark s .scheduled) _).begin stage = _
  rw [hscheduled, hbegin]
  have hfront : stage ∉ keys [] := List.not_mem_nil
  have hset : setState stage .inProgress ([] ++ (stage, .scheduled) :: allIn .scheduled rest) =
      [] ++ (stage, .inProgress) :: allIn .scheduled rest := setState_append hfront
  congr 2

/-- The state of the current stage is set. -/
theorem setState_within (h : stage ∉ done) :
    setState stage p' (within done stage p rest).states = (within done stage p' rest).states := by
  have hfront : stage ∉ keys (allIn .completed done) := by rwa [keys_allIn]
  exact setState_append hfront

theorem stateOf_within (h : stage ∉ done) :
    (within done stage p rest).stateOf stage = some p := by
  have hfront : stage ∉ keys (allIn .completed done) := by rwa [keys_allIn]
  show find stage (allIn .completed done ++ (stage, p) :: allIn .scheduled rest) = some p
  rw [find_of_not_mem hfront, find_cons]

theorem stateOf_final_finished (h : Proper stages) :
    (finished stages).stateOf .final = some .completed := by
  have hfront : Stage.final ∉ keys (allIn .completed stages) := by
    rw [keys_allIn]
    exact h.final
  show find .final (allIn .completed stages ++ [(.final, .completed)]) = some .completed
  rw [find_of_not_mem hfront, find_cons]

/-- A stage that fails keeps the run where it is. -/
theorem notify_failed {code : Int} (h : stage ∉ done) (hcode : code ≠ 0) :
    ∃ records, (within done stage .inProgress rest).notify stage code =
      ⟨within done stage .failed rest, .ok none, records⟩ := by
  obtain ⟨records, hnotify⟩ := notify_of_ne (q := within done stage .inProgress rest) rfl
    (stateOf_within h) hcode
  refine ⟨records, ?_⟩
  rw [hnotify]
  unfold mark
  rw [setState_within h]
  rfl

/-- The next stage is begun when one completes. -/
theorem notify_next {next : Stage} (h : Proper (done ++ stage :: next :: rest)) :
    ∃ records, (within done stage .inProgress (next :: rest)).notify stage 0 =
      ⟨within (done ++ [stage]) next .inProgress rest, .ok (some next), records⟩ := by
  obtain ⟨hdone, hrest, _, hafter⟩ := h.split
  have hmark : (within done stage .inProgress (next :: rest)).mark stage .completed =
      within done stage .completed (next :: rest) := by
    unfold mark
    rw [setState_within hdone]
    rfl
  -- nothing is in the way of the next stage, as this one has completed
  have hblocker : (within done stage .completed (next :: rest)).blocker? next = none := by
    show (if stage = next ∨ _ then none else some stage) = none
    rw [if_pos (.inr (stateOf_within hdone))]
  obtain ⟨records, hbegin⟩ := begin_of_none hblocker
  have hnext : next ∉ keys (allIn .completed done ++ [(stage, .completed)]) := by
    rw [keys_append, keys_allIn, List.mem_append]
    intro hmem
    rcases hmem with hmem | hmem
    · exact (hafter next List.mem_cons_self).1 hmem
    · exact (hafter next List.mem_cons_self).2 (List.mem_singleton.mp hmem)
  have hset : setState next .inProgress (_ ++ (next, .scheduled) :: allIn .scheduled rest) =
      _ ++ (next, .inProgress) :: allIn .scheduled rest := setState_append hnext
  refine ⟨records, ?_⟩
  rw [notify_zero_of_next rfl (stateOf_within hdone) (after?_append hdone), hmark, hbegin]
  simp only [within, allIn, List.map_cons, List.map_append, List.map_nil, List.append_assoc,
    List.cons_append, List.nil_append] at hset ⊢
  rw [hset]

/-- The run ends when its last stage completes. -/
theorem notify_last (h : Proper (done ++ [stage])) :
    (within done stage .inProgress []).notify stage 0 =
      ⟨finished (done ++ [stage]), .ok none, []⟩ := by
  obtain ⟨hdone, _, _, _⟩ := h.split
  rw [notify_zero_of_last rfl (stateOf_within hdone) (after?_append hdone),
    setState_within hdone, setState_of_not_mem h.final_not_mem]
  simp [finished, within, allIn]

/-- Everything is refused while the current stage is not in progress. -/
theorem refuses_all {current : Stage} (hcurrent : q.current = some current)
    (hstate : q.stateOf current ≠ some .inProgress) (event : Event) :
    q.Refuses (q.handle event) := by
  cases event with
  | start => exact refuses_start hcurrent
  | exited other code =>
    by_cases hother : other = current
    · rw [hother]
      exact refuses_of_progress hcurrent hstate
    · apply refuses_of_ne
      rw [hcurrent]
      intro he
      exact hother (Option.some.inj he).symm

/-- A run in which a stage has failed refuses everything. -/
theorem refuses_failed (h : stage ∉ done) (event : Event) :
    (within done stage .failed rest).Refuses ((within done stage .failed rest).handle event) := by
  have hcurrent : (within done stage .failed rest).current = some stage := rfl
  refine refuses_all hcurrent ?_ event
  rw [stateOf_within h]
  intro he
  cases he

/-- A run that has completed refuses everything. -/
theorem refuses_finished (h : Proper stages) (event : Event) :
    (finished stages).Refuses ((finished stages).handle event) := by
  have hcurrent : (finished stages).current = some .final := rfl
  refine refuses_all hcurrent ?_ event
  rw [stateOf_final_finished h]
  intro he
  cases he

/-- A stage in progress ends: it fails, the next one is begun, or the run completes. -/
theorem stands_exited (hproper : Proper (done ++ stage :: rest)) (code : Int) :
    (∃ answer, ((within done stage .inProgress rest).notify stage code).answer = .ok answer) ∧
      Stands (done ++ stage :: rest) ((within done stage .inProgress rest).notify stage code).next
        (done ++ [stage] ++ ((within done stage .inProgress rest).notify stage code).handedOut) := by
  obtain ⟨hdone, _, _, _⟩ := hproper.split
  by_cases hcode : code = 0
  · subst hcode
    cases rest with
    | nil =>
      rw [notify_last hproper]
      refine ⟨⟨_, rfl⟩, ?_⟩
      show Stands _ _ (done ++ [stage] ++ [])
      rw [List.append_nil]
      exact .finished
    | cons next rest =>
      obtain ⟨records, hnext⟩ := notify_next hproper
      rw [hnext]
      exact ⟨⟨_, rfl⟩, .within (by simp) (.inl rfl)⟩
  · have hnotify : ∃ records, (within done stage .inProgress rest).notify stage code =
        ⟨within done stage .failed rest, .ok none, records⟩ := notify_failed hdone hcode
    obtain ⟨records, hfailed⟩ := hnotify
    rw [hfailed]
    refine ⟨⟨_, rfl⟩, ?_⟩
    show Stands _ _ (done ++ [stage] ++ [])
    rw [List.append_nil]
    exact .within rfl (.inr rfl)

/-- **An event moves the run on, or it is refused.** -/
theorem Stands.handle (hproper : Proper stages) (h : Stands stages q handed) (event : Event) :
    q.Refuses (q.handle event) ∨
      (∃ answer, (q.handle event).answer = .ok answer) ∧
        Stands stages (q.handle event).next (handed ++ (q.handle event).handedOut) := by
  cases h with
  | idle =>
    cases event with
    | exited other code =>
      -- no stage is current before the run has started
      left
      apply refuses_of_ne
      intro he
      cases he
    | start =>
      right
      cases stages with
      | nil => exact absurd rfl hproper.ne_nil
      | cons stage rest =>
        obtain ⟨records, hstart⟩ := start_idle hproper
        have hhandle : Sequencer.handle ⟨stage :: rest, [], none⟩ .start =
            ⟨Sequencer.within [] stage .inProgress rest, .ok (some stage), records⟩ := hstart
        rw [hhandle]
        have hfirst : stage :: rest = [] ++ stage :: rest := rfl
        exact ⟨⟨_, rfl⟩, Stands.within hfirst (.inl rfl)⟩
  | @within done rest stage p hstages hp =>
    subst hstages
    obtain ⟨hdone, _, _, _⟩ := hproper.split
    rcases hp with rfl | rfl
    · cases event with
      | start => exact .inl (refuses_start rfl)
      | exited other code =>
        by_cases hother : other = stage
        · subst hother
          exact .inr (stands_exited hproper code)
        · left
          apply refuses_of_ne
          intro he
          exact hother (Option.some.inj he).symm
    · exact .inl (refuses_failed hdone event)
  | finished => exact .inl (refuses_finished hproper event)

/-! ### Any events -/

/-- The sequencer after some events, whether or not it refused them. -/
def after (q : Sequencer) (events : List Event) : Sequencer :=
  events.foldl (fun q event => (q.handle event).next) q

/-- The stages that are handed out for some events. -/
def handedOut (q : Sequencer) : List Event → List Stage
  | [] => []
  | event :: events => (q.handle event).handedOut ++ handedOut (q.handle event).next events

/-- **Events leave a run where it can stand.** -/
theorem stands_after (hproper : Proper stages) (h : Stands stages q handed)
    (events : List Event) : Stands stages (q.after events) (handed ++ q.handedOut events) := by
  induction events generalizing q handed with
  | nil =>
    show Stands stages q (handed ++ [])
    rwa [List.append_nil]
  | cons event events ih =>
    show Stands stages ((q.handle event).next.after events)
      (handed ++ ((q.handle event).handedOut ++ (q.handle event).next.handedOut events))
    rcases h.handle hproper event with ⟨e, hrefused, _⟩ | ⟨_, hnext⟩
    · rw [hrefused]
      exact ih h
    · rw [← List.append_assoc]
      exact ih hnext

/-! ### What a run reports -/

/-- No stage has failed among stages that are all in another state. -/
theorem find?_allIn (h : p ≠ .failed) :
    (allIn p stages ++ back).find? (fun s => s.2 = Progress.failed) =
      back.find? (fun s => s.2 = Progress.failed) := by
  induction stages with
  | nil => rfl
  | cons first stages ih =>
    show List.find? _ ((first, p) :: (allIn p stages ++ back)) = _
    rw [List.find?_cons_of_neg (by simpa using h), ih]

theorem failed_eq (q : Sequencer) :
    q.failed = (q.states.find? fun s => s.2 = Progress.failed).isSome := by
  unfold failed
  rw [Bool.eq_iff_iff, List.any_eq_true, List.find?_isSome]

/-- The stage that has failed, if any. -/
theorem find?_within (hp : p = .inProgress ∨ p = .failed) :
    (within done stage p rest).states.find? (fun s => s.2 = Progress.failed) =
      if p = .failed then some (stage, p) else none := by
  have hrest : (allIn .scheduled rest).find? (fun s => s.2 = Progress.failed) = none := by
    rw [← List.append_nil (allIn .scheduled rest), find?_allIn (by decide)]
    rfl
  show (allIn .completed done ++ (stage, p) :: allIn .scheduled rest).find? _ = _
  rw [find?_allIn (by decide)]
  rcases hp with rfl | rfl
  · rw [List.find?_cons_of_neg (by simp), hrest]
    rfl
  · rw [List.find?_cons_of_pos (by simp)]
    rfl

theorem find?_finished (stages : List Stage) :
    (finished stages).states.find? (fun s => s.2 = Progress.failed) = none := by
  show (allIn .completed stages ++ [(Stage.final, Progress.completed)]).find? _ = none
  rw [find?_allIn (by decide)]
  rfl

theorem stateOf_final_within (h : Proper (done ++ stage :: rest)) :
    (within done stage p rest).stateOf .final = none :=
  find_none h.final_not_mem

theorem completed_within (h : Proper (done ++ stage :: rest)) :
    (within done stage p rest).completed = false := by
  unfold completed
  rw [stateOf_final_within h]
  rfl

theorem completed_finished (h : Proper stages) : (finished stages).completed = true := by
  unfold completed
  rw [stateOf_final_finished h]
  rfl

/-- The status of a run that has begun and not completed. -/
theorem status_of_current (hcurrent : q.current = some stage) (hcompleted : q.completed = false) :
    q.status = (((q.states.find? fun s => s.2 = Progress.failed).map fun s =>
      (("Failed at " : Text) ++ s.1.name : Text)).getD
        (stage.name ++ " -> " ++ ((q.stateOf stage).map Progress.name).getD []) : Text) := by
  unfold status
  simp only [hcurrent, hcompleted, Bool.false_eq_true, if_false]
  cases q.states.find? fun s => s.2 = Progress.failed with
  | none => rfl
  | some s => rfl

/-- The status of a run within a stage. -/
theorem status_within (h : Proper (done ++ stage :: rest)) (hp : p = .inProgress ∨ p = .failed) :
    (within done stage p rest).status =
      if p = .failed then "Failed at " ++ stage.name
      else stage.name ++ " -> " ++ Progress.inProgress.name := by
  obtain ⟨hdone, _, _, _⟩ := h.split
  have hcurrent : (within done stage p rest).current = some stage := rfl
  rw [status_of_current hcurrent (completed_within h), find?_within hp, stateOf_within hdone]
  rcases hp with rfl | rfl <;> rfl

theorem status_finished (h : Proper stages) : (finished stages).status = "Completed" := by
  show (if (finished stages).completed = true then _ else _) = _
  rw [completed_finished h, if_pos rfl]

/-- A status is one sentence only. -/
theorem failed_eq_iff (a b : Stage) :
    ("Failed at " : Text) ++ a.name = "Failed at " ++ b.name ↔ a = b := by
  cases a <;> cases b <;> decide

theorem running_eq_iff (a b : Stage) :
    a.name ++ " -> " ++ Progress.inProgress.name = b.name ++ " -> " ++ Progress.inProgress.name ↔
      a = b := by
  cases a <;> cases b <;> decide

theorem running_ne_failed (a b : Stage) :
    a.name ++ " -> " ++ Progress.inProgress.name ≠ "Failed at " ++ b.name := by
  cases a <;> cases b <;> decide

theorem failed_ne (a : Stage) :
    ("Failed at " : Text) ++ a.name ≠ "Completed" ∧ ("Failed at " : Text) ++ a.name ≠ "Idle" := by
  cases a <;> decide

theorem running_ne (a : Stage) :
    a.name ++ " -> " ++ Progress.inProgress.name ≠ "Completed" ∧
      a.name ++ " -> " ++ Progress.inProgress.name ≠ "Idle" := by
  cases a <;> decide

/-- What a sequencer says of itself at a point of a run. -/
structure Reports (q : Sequencer) : Prop where
  exclusive : ¬ (q.completed = true ∧ q.failed = true)
  /-- The state of the current stage, which the status looks up, is known. -/
  known : ∀ stage, q.current = some stage → ∃ p, q.stateOf stage = some p
  idle : q.status = "Idle" ↔ q.current = none
  completed : q.status = "Completed" ↔ q.completed = true
  failed : (∃ stage : Stage, q.status = "Failed at " ++ stage.name) ↔ q.failed = true
  failedAt : ∀ stage : Stage, q.status = "Failed at " ++ stage.name ↔
    q.stateOf stage = some .failed
  running : ∀ stage : Stage, q.status = stage.name ++ " -> " ++ Progress.inProgress.name ↔
    q.stateOf stage = some .inProgress

theorem mem_of_find (h : find stage front = some p) : (stage, p) ∈ front := by
  induction front with
  | nil => cases h
  | cons head front ih =>
    obtain ⟨first, progress⟩ := head
    have hfind : (if first = stage then some progress else find stage front) = some p := h
    by_cases hfirst : first = stage
    · rw [if_pos hfirst] at hfind
      rw [hfirst, Option.some.inj hfind]
      exact List.mem_cons_self
    · rw [if_neg hfirst] at hfind
      exact List.mem_cons_of_mem _ (ih hfind)

theorem eq_of_mem_allIn (h : (stage, p') ∈ allIn p stages) : p' = p := by
  obtain ⟨s, _, heq⟩ := List.mem_map.mp h
  exact (Prod.mk.inj heq).2.symm

/-- Only the current stage has begun and not completed. -/
theorem stateOf_within_iff {s : Stage} (hdone : stage ∉ done)
    (hp : p' = .inProgress ∨ p' = .failed) :
    (within done stage p rest).stateOf s = some p' ↔ s = stage ∧ p = p' := by
  constructor
  · intro h
    have hmem := mem_of_find h
    rcases List.mem_append.mp hmem with hmem | hmem
    · rw [eq_of_mem_allIn hmem] at hp
      rcases hp with hp | hp <;> cases hp
    · rcases List.mem_cons.mp hmem with heq | hmem
      · exact ⟨(Prod.mk.inj heq).1, (Prod.mk.inj heq).2.symm⟩
      · rw [eq_of_mem_allIn hmem] at hp
        rcases hp with hp | hp <;> cases hp
  · intro h
    obtain ⟨rfl, rfl⟩ := h
    exact stateOf_within hdone

/-- After the last stage every state is that of a completed stage. -/
theorem stateOf_finished (h : (finished stages).stateOf stage = some p) : p = .completed := by
  rcases List.mem_append.mp (mem_of_find h) with hmem | hmem
  · exact eq_of_mem_allIn hmem
  · exact (Prod.mk.inj (List.mem_singleton.mp hmem)).2

theorem reports_idle (stages : List Stage) : Reports ⟨stages, [], none⟩ := by
  have hstatus : (⟨stages, [], none⟩ : Sequencer).status = "Idle" := rfl
  refine ⟨by simp [Sequencer.completed, stateOf, find], ?_, ?_, ?_, ?_, ?_, ?_⟩
  · intro stage h
    cases h
  · rw [hstatus]
    exact iff_of_true rfl rfl
  · rw [hstatus]
    exact iff_of_false (by decide) (by simp [Sequencer.completed, stateOf, find])
  · rw [hstatus]
    refine iff_of_false ?_ (by simp [Sequencer.failed])
    intro h
    obtain ⟨stage, h⟩ := h
    exact (failed_ne stage).2 h.symm
  · intro stage
    rw [hstatus]
    exact iff_of_false (failed_ne stage).2.symm (by simp [stateOf, find])
  · intro stage
    rw [hstatus]
    exact iff_of_false (running_ne stage).2.symm (by simp [stateOf, find])

theorem reports_running (h : Proper (done ++ stage :: rest)) :
    Reports (within done stage .inProgress rest) := by
  obtain ⟨hdone, _, _, _⟩ := h.split
  have hstatus := status_within (p := .inProgress) h (.inl rfl)
  rw [if_neg (by decide)] at hstatus
  have hcompleted := completed_within (p := .inProgress) h
  have hfailed : (within done stage .inProgress rest).failed = false := by
    rw [failed_eq, find?_within (.inl rfl), if_neg (by decide)]
    rfl
  refine ⟨by simp [hcompleted], ?_, ?_, ?_, ?_, ?_, ?_⟩
  · intro s hs
    obtain rfl := Option.some.inj hs
    exact ⟨_, stateOf_within hdone⟩
  · rw [hstatus]
    exact iff_of_false (running_ne stage).2 (by simp [within])
  · rw [hstatus, hcompleted]
    exact iff_of_false (running_ne stage).1 Bool.false_ne_true
  · rw [hstatus, hfailed]
    refine iff_of_false ?_ Bool.false_ne_true
    intro he
    obtain ⟨s, he⟩ := he
    exact running_ne_failed stage s he
  · intro s
    rw [hstatus, stateOf_within_iff hdone (.inr rfl)]
    refine iff_of_false (running_ne_failed stage s) ?_
    intro he
    cases he.2
  · intro s
    rw [hstatus, stateOf_within_iff hdone (.inl rfl), running_eq_iff]
    exact ⟨fun he => ⟨he.symm, rfl⟩, fun he => he.1.symm⟩

theorem reports_failed (h : Proper (done ++ stage :: rest)) :
    Reports (within done stage .failed rest) := by
  obtain ⟨hdone, _, _, _⟩ := h.split
  have hstatus := status_within (p := .failed) h (.inr rfl)
  rw [if_pos rfl] at hstatus
  have hcompleted := completed_within (p := .failed) h
  have hfailed : (within done stage .failed rest).failed = true := by
    rw [failed_eq, find?_within (.inr rfl), if_pos rfl]
    rfl
  refine ⟨by simp [hcompleted], ?_, ?_, ?_, ?_, ?_, ?_⟩
  · intro s hs
    obtain rfl := Option.some.inj hs
    exact ⟨_, stateOf_within hdone⟩
  · rw [hstatus]
    exact iff_of_false (failed_ne stage).2 (by simp [within])
  · rw [hstatus, hcompleted]
    exact iff_of_false (failed_ne stage).1 Bool.false_ne_true
  · rw [hstatus, hfailed]
    exact iff_of_true ⟨stage, rfl⟩ rfl
  · intro s
    rw [hstatus, stateOf_within_iff hdone (.inr rfl), failed_eq_iff]
    exact ⟨fun he => ⟨he.symm, rfl⟩, fun he => he.1.symm⟩
  · intro s
    rw [hstatus, stateOf_within_iff hdone (.inl rfl)]
    refine iff_of_false (running_ne_failed s stage).symm ?_
    intro he
    cases he.2

theorem reports_finished (h : Proper stages) : Reports (finished stages) := by
  have hstatus := status_finished h
  have hcompleted := completed_finished h
  have hfailed : (finished stages).failed = false := by
    rw [failed_eq, find?_finished]
    rfl
  refine ⟨by simp [hfailed], ?_, ?_, ?_, ?_, ?_, ?_⟩
  · intro s hs
    obtain rfl := Option.some.inj hs
    exact ⟨_, stateOf_final_finished h⟩
  · rw [hstatus]
    exact iff_of_false (by decide) (by simp [finished])
  · rw [hstatus, hcompleted]
    exact iff_of_true rfl rfl
  · rw [hstatus, hfailed]
    refine iff_of_false ?_ Bool.false_ne_true
    intro he
    obtain ⟨s, he⟩ := he
    exact (failed_ne s).1 he.symm
  · intro s
    rw [hstatus]
    refine iff_of_false (failed_ne s).1.symm ?_
    intro he
    cases stateOf_finished he
  · intro s
    rw [hstatus]
    refine iff_of_false (running_ne s).1.symm ?_
    intro he
    cases stateOf_finished he

/-- **At every point a run says where it stands.** -/
theorem Stands.reports (hproper : Proper stages) (h : Stands stages q handed) : Reports q := by
  cases h with
  | idle => exact reports_idle stages
  | within hstages hp =>
    subst hstages
    rcases hp with rfl | rfl
    · exact reports_running hproper
    · exact reports_failed hproper
  | finished => exact reports_finished hproper

/-! ### What can be relied on -/

/-- What can be relied on at a point of a run over stages of which some were handed out. -/
structure Orderly (stages handed : List Stage) (q : Sequencer) : Prop where
  /-- Nothing was started, the run is within a stage, or all stages have completed. -/
  stands : (q.current = none ∧ q.states = []) ∨
    (∃ done stage rest p, stages = done ++ stage :: rest ∧ q.current = some stage ∧
      (p = .inProgress ∨ p = .failed) ∧ q.stateOf stage = some p ∧
      (∀ s ∈ done, q.stateOf s = some .completed) ∧
      (∀ s ∈ rest, q.stateOf s = some .scheduled) ∧ q.stateOf .final = none) ∨
    (q.current = some .final ∧ q.stateOf .final = some .completed ∧
      ∀ s ∈ stages, q.stateOf s = some .completed)
  /-- What is refused changes nothing, and it is refused as out of order. -/
  refused : ∀ event e, (q.handle event).answer = .error e →
    (q.handle event).next = q ∧ ∀ stage, e ≠ .notIncluded stage
  /-- A run that has ended refuses all that follows. -/
  ended : q.failed = true ∨ q.completed = true →
    ∀ event, ∃ e, (q.handle event).answer = .error e
  reports : Reports q
  handed_prefix : handed <+: stages
  handed_nodup : handed.Nodup

/-- What is handed out is a beginning of the stages. -/
theorem Stands.prefix (h : Stands stages q handed) : handed <+: stages := by
  cases h with
  | idle => exact List.nil_prefix
  | @within done rest stage p hstages _ =>
    rw [hstages]
    exact ⟨rest, by simp⟩
  | finished => exact List.prefix_refl _

/-- The states of the stages, by where the run stands. -/
theorem Stands.states (hproper : Proper stages) (h : Stands stages q handed) :
    (q.current = none ∧ q.states = []) ∨
    (∃ done stage rest p, stages = done ++ stage :: rest ∧ q.current = some stage ∧
      (p = .inProgress ∨ p = .failed) ∧ q.stateOf stage = some p ∧
      (∀ s ∈ done, q.stateOf s = some .completed) ∧
      (∀ s ∈ rest, q.stateOf s = some .scheduled) ∧ q.stateOf .final = none) ∨
    (q.current = some .final ∧ q.stateOf .final = some .completed ∧
      ∀ s ∈ stages, q.stateOf s = some .completed) := by
  cases h with
  | idle => exact .inl ⟨rfl, rfl⟩
  | @within done rest stage p hstages hp =>
    subst hstages
    obtain ⟨hdone, _, _, hafter⟩ := hproper.split
    refine .inr (.inl ⟨done, stage, rest, p, rfl, rfl, hp, stateOf_within hdone, ?_, ?_,
      stateOf_final_within hproper⟩)
    · intro s hs
      exact find_allIn hs
    · intro s hs
      -- a later stage is found behind those that have completed and the current one
      obtain ⟨hnot, hne⟩ := hafter s hs
      have hfront : s ∉ keys (allIn .completed done ++ [(stage, p)]) := by
        rw [keys_append, keys_allIn, List.mem_append]
        intro hmem
        rcases hmem with hmem | hmem
        · exact hnot hmem
        · exact hne (List.mem_singleton.mp hmem)
      have hrest : find s (allIn .scheduled rest ++ []) = some .scheduled := find_allIn hs
      rw [List.append_nil] at hrest
      have hfind : find s ((allIn .completed done ++ [(stage, p)]) ++ allIn .scheduled rest) =
          find s (allIn .scheduled rest) := find_of_not_mem hfront
      rw [List.append_assoc, hrest] at hfind
      exact hfind
  | finished =>
    refine .inr (.inr ⟨rfl, stateOf_final_finished hproper, ?_⟩)
    intro s hs
    exact find_allIn hs

/-- A run that has failed or completed stays where it is. -/
theorem Stands.ended (hproper : Proper stages) (h : Stands stages q handed)
    (hend : q.failed = true ∨ q.completed = true) (event : Event) :
    ∃ e, (q.handle event).answer = .error e := by
  have hrefuses : q.Refuses (q.handle event) := by
    cases h with
    | idle =>
      rcases hend with hfailed | hcompleted
      · simp [Sequencer.failed] at hfailed
      · simp [completed, stateOf, find] at hcompleted
    | within hstages hp =>
      subst hstages
      obtain ⟨hdone, _, _, _⟩ := hproper.split
      rcases hp with rfl | rfl
      · rw [completed_within hproper, failed_eq, find?_within (.inl rfl)] at hend
        simp at hend
      · exact refuses_failed hdone event
    | finished => exact refuses_finished hproper event
  obtain ⟨e, hmove, _⟩ := hrefuses
  rw [hmove]
  exact ⟨e, rfl⟩

/-- **At every point of a run the sequencer is orderly.** -/
theorem Stands.orderly (hproper : Proper stages) (h : Stands stages q handed) :
    Orderly stages handed q := by
  refine ⟨h.states hproper, ?_, h.ended hproper, h.reports hproper, h.prefix,
    hproper.nodup.sublist h.prefix.sublist⟩
  intro event e he
  rcases h.handle hproper event with ⟨e', hmove, hother⟩ | ⟨⟨answer, hok⟩, _⟩
  · rw [hmove] at he ⊢
    obtain rfl := Except.error.inj he
    exact ⟨rfl, hother⟩
  · rw [hok] at he
    cases he

/-- **Whatever a sequencer is told, in any order, it stays orderly.** -/
theorem orderly_after (includeDatabase includeHeaders : Bool) (events : List Event) :
    Orderly (ofParts includeDatabase includeHeaders).stages
      ((ofParts includeDatabase includeHeaders).handedOut events)
      ((ofParts includeDatabase includeHeaders).after events) := by
  have hproper := proper_ofParts includeDatabase includeHeaders
  have hstands : Stands (ofParts includeDatabase includeHeaders).stages
      (ofParts includeDatabase includeHeaders) [] := .idle
  exact (stands_after hproper hstands events).orderly hproper

end Sequencer

end ClangDb
