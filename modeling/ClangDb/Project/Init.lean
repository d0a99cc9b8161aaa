import ClangDb.Engine.Install
import ClangDb.Project.Answer

/-! # New configurations

    The configuration of a new project is written beside its project file.  The
    engine is given, or detected from the project file.
-/

namespace ClangDb

namespace Project

/-- An engine, and whether it was detected. -/
structure ChosenEngine where
  install : Engine.Install
  detected : Bool

/-- The engine that is given, or else the one that is detected. -/
def chooseEngine (host : Host) (file : Path) (engine : Json) : Task (Option ChosenEngine) := do
  if engine.isTrue then
    let root := Path.normalize engine.plain
    let version ← Task.ofExcept (Engine.version (← Task.store) root)
    return some ⟨⟨root, version⟩, false⟩
  else
    return (← Engine.detect host file.toText).map fun install => ⟨install, true⟩

/-- Writes the configuration of a new project.  One that is there stays, unless
    it is to be overwritten. -/
def init (host : Host) (project engine : Json) (force : Bool) : Task Answer := do
  match ← (do Task.ofExcept (locate host (← Task.store) project)).orFailure with
  | .error answer => return answer
  | .ok located =>
    let path := (Config.pathIn located.folder).toText
    if (← Config.isIn located.folder) && !force then
      return .failure ("Config already exists: " ++ path) [("warning", .bool true)]
    match ← chooseEngine host located.file engine with
    | none =>
      return .failure ("Could not auto-detect the engine from the .uproject; "
        ++ "pass --engine with the engine root") []
    | some ⟨install, detected⟩ =>
      let platform := host.platform.name
      let config := Config.initial located.name install.root install.version platform
      match ← (config.save located.folder force).outcome with
      | .error (.access (.file e)) =>
        return .failure ("Cannot write config file: " ++ path ++ " (" ++ e.message ++ ")") []
      | .error (.configExists existing) =>
        let message := (Fault.configExists existing).message
        return .failure ("Cannot write config file: " ++ path ++ " (" ++ message ++ ")") []
      | .error e => Task.fail e
      | .ok _ =>
        Task.log .info ("Wrote " ++ path)
        return .done "Config created successfully" [
          ("config_path", .string path), ("project", .string located.name),
          ("platform", .string platform), ("auto_detected", .bool detected),
          ("detected_engine", if detected then .string install.root else .null),
          ("detected_version", if detected then .number install.version else .null)]

end Project

end ClangDb
