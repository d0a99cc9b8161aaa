import ClangDb.Generation.Sequencer
import ClangDb.Project.Database
import ClangDb.Project.Load
import ClangDb.Tool.Run

/-! # Generating a project's database

    A run takes the stages that the sequencer gives it: the build tool writes its
    database into the engine's folder, that database is converted into the
    project's folder, and the header tool runs.  A tool that cannot be started
    ends the run within its stage; one that exits with another code than zero
    makes its stage fail.

    The tools are other programs, so a run is given the way they are run.
-/

namespace ClangDb

namespace Project

/-- What a run is asked to do. -/
structure GenerateOptions where
  withEngine : Bool
  headers : Bool
  skipDatabase : Bool
  verbose : Bool
  limit : Option Seconds
  /-- The number of workers of the conversion, and the order of their turns. -/
  workers : Int := 1
  turns : List Nat := []

/-- A run that can start: the project, its paths and the options. -/
structure Plan where
  loaded : Loaded
  tool : Text
  input : Text
  output : Text
  responseFiles : Path
  options : GenerateOptions

/-- The paths of a run. -/
def Plan.of (host : Host) (loaded : Loaded) (options : GenerateOptions) : Except Fault Plan := do
  let version := loaded.config.engineVersion
  let version := if version.isZero then Engine.usualVersion else version
  let folder ← loaded.target.responseFileFolder loaded.located.folder
  return {
    loaded := loaded
    tool := Tool.buildTool host.platform loaded.engineDir (some version)
    input := ((Path.ofText loaded.engineDir).join databaseName).toText
    output := (loaded.located.folder.join databaseName).toText
    responseFiles := folder
    options := options }

/-- What the conversion of a run is asked to do. -/
def Plan.request (host : Host) (p : Plan) : Database.Request where
  input := p.input
  outputDir := p.responseFiles.toText
  engineDir := p.loaded.engineDir
  skipEngine := !p.options.withEngine
  dialect := host.platform.dialect
  verbose := p.options.verbose

/-- The answer of a run before its first stage. -/
def notRun : Answer := .failure "Generation did not run" []

/-- Runs a tool of a stage. -/
def runStageTool (tools : Tool.Runner) (p : Plan) (announcement : Text)
    (command : Except Fault (List Json)) : Task Int := do
  let command ← Task.ofExcept command
  Task.log .info (announcement ++ (← Task.ofExcept (Tool.shownCommand command)))
  return (← tools command (some p.loaded.engineDir) p.options.limit).code

/-- Runs one stage: its return code, and the answer so far. -/
def runStage (tools : Tool.Runner) (host : Host) (p : Plan) (stage : Stage) (answer : Answer) :
    Task (Int × Answer) := do
  let file := p.loaded.located.file.toText
  match stage with
  | .database =>
    let code ← runStageTool tools p "Running UnrealBuildTool: "
      (Tool.databaseCommand p.tool file p.loaded.target)
    if code = 0 then return (0, answer)
    return (code, .failure
      ("UnrealBuildTool execution failed (exit code " ++ Text.ofInt code ++ ")") [])
  | .process =>
    Task.log .info ("Processing " ++ p.input)
    let answer ← process (p.request host) (some p.output) p.options.workers p.options.turns
    return (if answer.success then 0 else 1, answer)
  | _ =>
    let code ← runStageTool tools p "Generating headers: "
      (Tool.headersCommand p.tool file p.loaded.target)
    if code = 0 then return (0, answer)
    return (code, { answer with
      success := false
      message := "UnrealHeaderTool failed (exit code " ++ Text.ofInt code ++ ")" })

/-- What a run came to: the sequencer and the answer, or the tool that could not
    be run. -/
structure RunEnd where
  sequencer : Sequencer
  answer : Except ToolError Answer

/-- Runs stages while there is a next one.  Each completion moves on in the list
    of stages, so its length is fuel enough. -/
def runStages (tools : Tool.Runner) (host : Host) (p : Plan) :
    (fuel : Nat) → Sequencer → Stage → Answer → Task RunEnd
  | 0, q, _, answer => return ⟨q, .ok answer⟩
  | fuel + 1, q, stage, answer => do
    match ← (runStage tools host p stage answer).outcome with
    | .error (.tool e) => return ⟨q, .error e⟩
    | .error e => Task.fail e
    | .ok (code, answer) =>
      let move := q.notify stage code
      Task.report move.records
      match move.answer with
      | .ok (some next) => runStages tools host p fuel move.next next answer
      | _ => return ⟨move.next, .ok answer⟩

/-- Starts a run and takes it to its end. -/
def runAll (tools : Tool.Runner) (host : Host) (p : Plan) : Task RunEnd := do
  let q := Sequencer.ofParts (!p.options.skipDatabase) p.options.headers
  let move := q.start
  Task.report move.records
  match move.answer with
  | .ok (some stage) => runStages tools host p q.stages.length move.next stage notRun
  | _ => return ⟨move.next, .ok notRun⟩

/-- Generates the database of a project, with tools that are run in some way. -/
def generateWith (tools : Tool.Runner) (host : Host) (project engine index : Json)
    (options : GenerateOptions) : Task Answer := do
  match ← (load host project engine index).orFailure with
  | .error answer => return answer
  | .ok loaded =>
    Task.log .info ("Project: " ++ loaded.located.name)
    Task.log .info ("Engine: " ++ loaded.engineDir)
    let name ← Task.ofExcept loaded.target.fullName
    let (label, target) ← Task.ofExcept loaded.target.labelled
    Task.log .info ("Target: " ++ name ++ " (" ++ label.plain ++ ")")
    let plan ← Task.ofExcept (Plan.of host { loaded with target := target } options)
    let ended ← runAll tools host plan
    let status := Json.string ended.sequencer.status
    match ended.answer with
    | .error e => return .failure e.message [("status", status)]
    | .ok answer => return (answer.withDetail "status" status).withDetail "target" label

/-- Generates the database of a project. -/
def generate (host : Host) (project engine index : Json) (options : GenerateOptions) :
    Task Answer :=
  generateWith Tool.run host project engine index options

end Project

end ClangDb
