import ClangDb.Project.Load
import ClangDb.Tool.Run

/-! # Building and launching a project

    A project is built by the engine's script, and launched in the editor or by
    its own binary.  Either command can be asked for without being run.
-/

namespace ClangDb

namespace Project

/-- Runs a command, or only shows it.  `activity` is the word for it in the
    answer. -/
def dispatch (command : List Json) (activity : Text) (dryRun : Bool) (folder : Path)
    (limit : Option Seconds) : Task Answer := do
  let shown ← Task.ofExcept (Tool.shownCommand command)
  if dryRun then
    return .done (activity ++ " command constructed") [
      ("command", .string shown), ("argv", .array command)]
  match ← (Tool.run command (some folder.toText) limit).outcome with
  | .error (.tool e) => return .failure e.message [("command", .string shown)]
  | .error e => Task.fail e
  | .ok ran =>
    if ran.code ≠ 0 then
      return .failure (activity ++ " failed (exit code " ++ Text.ofInt ran.code ++ ")") [
        ("command", .string shown), ("returncode", .int ran.code)]
    return .done (activity ++ " completed successfully") [
      ("command", .string shown), ("returncode", .int 0)]

/-- Builds a target of a project. -/
def build (host : Host) (project index : Json) (dryRun : Bool) (limit : Option Seconds) :
    Task Answer := do
  match ← (load host project .null index).orFailure with
  | .error answer => return answer
  | .ok p =>
    let script := Tool.buildScript host.platform p.engineDir
    let command ← Task.ofExcept (Tool.buildCommand script p.located.file.toText p.target)
    dispatch command "Build" dryRun p.located.folder limit

/-- Launches a target of a project. -/
def run (host : Host) (project index : Json) (dryRun : Bool) (limit : Option Seconds) :
    Task Answer := do
  match ← (load host project .null index).orFailure with
  | .error answer => return answer
  | .ok p =>
    let folder := Path.normalize p.located.folder.toText
    let command := Tool.runCommand host.platform p.engineDir folder p.located.name
      p.located.file.toText p.target
    dispatch command "Run" dryRun p.located.folder limit

end Project

end ClangDb
