import ClangDb.Log

/-! # The stages of a generation run

    A run is a chain of stages: the build tool writes the raw database, the
    database is converted, and the header tool runs.  The first and the last are
    optional.  Each stage ends with a return code; the sequencer keeps the state
    of every stage and says which one is next.

    A stage is begun only when the one before it has completed, a completion is
    taken only from the stage in progress, and a move that comes out of order
    changes nothing.
-/

namespace ClangDb

/-- A stage of a run; `final` stands for the end of a run that succeeded. -/
inductive Stage where
  | database
  | process
  | headers
  | final
  deriving DecidableEq, Repr, Inhabited

/-- What has become of a stage. -/
inductive Progress where
  | scheduled
  | inProgress
  | completed
  | failed
  deriving DecidableEq, Repr, Inhabited

namespace Stage

/-- The name of a stage. -/
def name : Stage → Text
  | .database => "database"
  | .process => "process"
  | .headers => "headers"
  | .final => "final"

/-- A stage as the report on an unknown stage shows it. -/
def shown : Stage → Text
  | .database => "<GenerationStage.DATABASE: 'database'>"
  | .process => "<GenerationStage.PROCESS: 'process'>"
  | .headers => "<GenerationStage.HEADERS: 'headers'>"
  | .final => "<GenerationStage.FINAL: 'final'>"

/-- The stage of a name. -/
def ofName? (s : Text) : Option Stage :=
  [Stage.database, .process, .headers, .final].find? fun stage => stage.name = s

end Stage

/-- The name of a state. -/
def Progress.name : Progress → Text
  | .scheduled => "scheduled"
  | .inProgress => "inprogress"
  | .completed => "completed"
  | .failed => "failed"

/-- Why a move was refused. -/
inductive SequencerError where
  | alreadyStarted (current : Stage)
  | stillInProgress (current wanted : Stage)
  /-- A completion of a stage that is not the current one. -/
  | notCurrent (reported : Stage) (current : Option Stage)
  | notInProgress (stage : Stage)
  /-- The stage completed, but does not belong to the run. -/
  | notIncluded (stage : Stage)
  deriving DecidableEq, Repr

/-- The sentence that reports a refused move. -/
def SequencerError.message : SequencerError → Text
  | .alreadyStarted current => "Sequencer already started at " ++ current.name
  | .stillInProgress current wanted =>
    "Cannot start " ++ wanted.name ++ ": " ++ current.name ++ " still in progress"
  | .notCurrent reported current =>
    "Got completion for " ++ reported.name ++ ", current stage is "
      ++ (match current with
        | some stage => stage.name
        | none => "none")
  | .notInProgress stage => "Stage " ++ stage.name ++ " is not in progress"
  | .notIncluded stage => stage.shown ++ " is not in list"

/-- The stages of a run, what has become of them in the order in which that was
    first noted, and the current one. -/
structure Sequencer where
  stages : List Stage
  states : List (Stage × Progress)
  current : Option Stage
  deriving DecidableEq, Repr

namespace Sequencer

/-- A run that was not started. -/
def ofParts (includeDatabase includeHeaders : Bool) : Sequencer where
  stages := (if includeDatabase then [.database] else []) ++ [.process]
    ++ if includeHeaders then [.headers] else []
  states := []
  current := none

/-- The state of a stage among others. -/
def find (stage : Stage) : List (Stage × Progress) → Option Progress
  | [] => none
  | (s, p) :: r => if s = stage then some p else find stage r

/-- The states with the one of a stage set. -/
def setState (stage : Stage) (progress : Progress) :
    List (Stage × Progress) → List (Stage × Progress)
  | [] => [(stage, progress)]
  | (s, p) :: r => if s = stage then (s, progress) :: r else (s, p) :: setState stage progress r

/-- What has become of a stage. -/
def stateOf (q : Sequencer) (stage : Stage) : Option Progress := find stage q.states

/-- The sequencer with the state of a stage set. -/
def mark (q : Sequencer) (stage : Stage) (progress : Progress) : Sequencer :=
  { q with states := setState stage progress q.states }

/-- Whether the run succeeded. -/
def completed (q : Sequencer) : Bool := q.stateOf .final = some .completed

/-- Whether a stage failed. -/
def failed (q : Sequencer) : Bool := q.states.any fun (_, p) => p = .failed

/-! ### Moves -/

/-- What a move leaves, answers and reports. -/
structure Move where
  next : Sequencer
  answer : Except SequencerError (Option Stage)
  records : List Record

/-- A move that is refused. -/
def refuse (q : Sequencer) (e : SequencerError) : Move := ⟨q, .error e, []⟩

/-- The stage that has to complete before another is begun. -/
def blocker? (q : Sequencer) (stage : Stage) : Option Stage :=
  match q.current with
  | none => none
  | some current =>
    if current = stage ∨ q.stateOf current = some .completed then none else some current

/-- Begins a stage. -/
def begin (q : Sequencer) (stage : Stage) : Move :=
  match q.blocker? stage with
  | some current => q.refuse (.stillInProgress current stage)
  | none =>
    let next := { q.mark stage .inProgress with current := some stage }
    let message := "Stage " ++ stage.name ++ " -> " ++ Progress.inProgress.name
    ⟨next, .ok (some stage), [⟨.debug, message⟩]⟩

/-- Schedules every stage and begins the first. -/
def start (q : Sequencer) : Move :=
  match q.current with
  | some current => q.refuse (.alreadyStarted current)
  | none =>
    let scheduled := q.stages.foldl (fun q stage => q.mark stage .scheduled) q
    scheduled.begin (q.stages.headD .process)

/-- The stages after the first occurrence of one, if it occurs. -/
def after? (stage : Stage) : List Stage → Option (List Stage)
  | [] => none
  | s :: r => if s = stage then some r else after? stage r

/-- Takes the completion of a stage with its return code, and begins the next
    stage if the code is zero. -/
def notify (q : Sequencer) (stage : Stage) (code : Int) : Move :=
  if q.current ≠ some stage then q.refuse (.notCurrent stage q.current)
  else if q.stateOf stage ≠ some .inProgress then q.refuse (.notInProgress stage)
  else if code ≠ 0 then
    ⟨q.mark stage .failed, .ok none,
      [⟨.debug, "Stage " ++ stage.name ++ " failed with " ++ Text.ofInt code⟩]⟩
  else
    let q := q.mark stage .completed
    match after? stage q.stages with
    | none => q.refuse (.notIncluded stage)
    | some (next :: _) => q.begin next
    | some [] => ⟨{ q.mark .final .completed with current := some .final }, .ok none, []⟩

/-- One sentence on where the run stands. -/
def status (q : Sequencer) : Text :=
  match q.current with
  | none => "Idle"
  | some current =>
    if q.completed then "Completed"
    else match q.states.find? fun (_, p) => p = .failed with
      | some (stage, _) => "Failed at " ++ stage.name
      | none => current.name ++ " -> " ++ ((q.stateOf current).map Progress.name).getD []

end Sequencer

end ClangDb
