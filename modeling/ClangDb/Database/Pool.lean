import ClangDb.Database.Pass

/-! # Workers

    The jobs of a pass can be shared out among several workers.  Which of them
    takes which job when is not known beforehand, so a pool is given the order of
    its turns: at each turn one job that has not run yet runs as a whole, on the
    store as it is then.  What a job returns is kept with the job and asked for
    in the order of the jobs, whatever the order of the turns was.  A job that
    cannot even be tried raises; the first to do so ends the pass, but unlike with
    one worker the jobs after it may have run.

    A pass with one worker is the pass that runs its jobs one after another.
-/

namespace ClangDb

namespace Database

/-! ### Turns -/

/-- What a job returns: the error that it reports, if any.  A path that is no path
    at all is raised instead. -/
abbrev Verdict := Except AccessError (Option JobError)

/-- Runs a job on a store. -/
def Job.attempt (s : Store) (job : Job) : Store × Verdict :=
  match job.run s with
  | .written s => (s, .ok none)
  | .failed e => (s, .ok (some e))
  | .aborted e => (s, .error e)

/-- A job of a pool, and what it returned if it has run. -/
structure Slot where
  job : Job
  verdict : Option Verdict

/-- Jobs that are shared out, and the store that they work on. -/
structure Pool where
  store : Store
  slots : List Slot

/-- Before the first turn. -/
def Pool.start (s : Store) (jobs : List Job) : Pool := ⟨s, jobs.map (⟨·, none⟩)⟩

/-- A turn of the job at a position.  Nothing happens if it has run. -/
def Pool.turn (pool : Pool) (i : Nat) : Pool :=
  match pool.slots[i]? with
  | some ⟨job, none⟩ =>
    let (s, verdict) := job.attempt pool.store
    ⟨s, pool.slots.set i ⟨job, some verdict⟩⟩
  | _ => pool

/-- Turns one after another. -/
def Pool.turns (pool : Pool) (order : List Nat) : Pool := order.foldl Pool.turn pool

/-- What is counted of the verdicts, in the order of the jobs.  The first that was
    raised ends the count, and one that is missing is waited for. -/
def collect : List (Option Verdict) → Option (Except AccessError Tally)
  | [] => some (.ok ⟨0, []⟩)
  | none :: _ => none
  | some (.error e) :: _ => some (.error e)
  | some (.ok none) :: more =>
    (collect more).map (·.map fun tally => { tally with written := tally.written + 1 })
  | some (.ok (some e)) :: more =>
    (collect more).map (·.map fun tally => { tally with errors := e :: tally.errors })

/-- Runs jobs with a number of workers, who take their turns in an order.  There is
    no result as long as one is waited for. -/
def runShared (workers : Int) (order : List Nat) (s : Store) (jobs : List Job) :
    Store × Option (Except AccessError Tally) :=
  if 1 < workers ∧ 1 < jobs.length then
    let pool := (Pool.start s jobs).turns order
    (pool.store, collect (pool.slots.map (·.verdict)))
  else
    let (s, result) := runJobs s jobs
    (s, some result)

/-! ### A pass with workers -/

/-- What a pass does before it scans: it reads its input and makes its output
    folder.  This is where it can be refused. -/
def Request.start (s : Store) (r : Request) : Store × Except PassError (List Text) :=
  if r.engineDir.trim.isEmpty then (s, .error .noEngineDir)
  else
    match s.read r.input with
    | .error (.file e) => (s, .error (.unreadable r.input e))
    | .error e => (s, .error (.badPath e))
    | .ok bytes =>
      match s.makeFolders r.options.outputDir with
      | (s, .error (.file e)) => (s, .error (.noOutputDir r.options.outputDir e))
      | (s, .error e) => (s, .error (.badPath e))
      | (s, .ok ()) => (s, .ok (Text.rawLines (Utf8.decodeEscaping bytes)))

/-- How a pass ends, by the lines that it scanned and what came of the jobs. -/
def Options.conclude (o : Options) (lines : List Text) (s : Store)
    (result : Except AccessError Tally) : Pass :=
  let scan := scanLines o .initial lines
  match result with
  | .error e => ⟨s, scan.records, .error (.badPath e)⟩
  | .ok tally =>
    let report : Report := ⟨scan.lines.flatten, tally.written, tally.errors, countCommands lines⟩
    let warnings := tally.errors.map fun e => (⟨.warning, e.message⟩ : Record)
    ⟨s, scan.records ++ warnings ++ [⟨.debug, report.summary⟩], .ok report⟩

/-- A pass with a number of workers, who take their turns in an order.  There is no
    pass yet as long as a job is waited for. -/
def passWith (workers : Int) (order : List Nat) (s : Store) (r : Request) : Option Pass :=
  match r.start s with
  | (s, .error e) => some ⟨s, [], .error e⟩
  | (s, .ok lines) =>
    match runShared workers order s (scanLines r.options .initial lines).jobs with
    | (s, some result) => some (r.options.conclude lines s result)
    | (_, none) => none

/-- The jobs of a pass; one that is refused has none. -/
def Request.jobs (s : Store) (r : Request) : List Job :=
  match r.start s with
  | (_, .ok lines) => (scanLines r.options .initial lines).jobs
  | (_, .error _) => []

/-- A pass that is taken to its end: the jobs that the order leaves out take their turns
    after it, so that none is waited for. -/
def passBy (workers : Int) (order : List Nat) (s : Store) (r : Request) : Pass :=
  (passWith workers (order ++ List.range (r.jobs s).length) s r).getD (pass s r)

end Database

end ClangDb
