import ClangDb.Project.Answer
import ClangDb.Project.Find

/-! # Loading a project

    Most operations need the project, its configuration, the engine and one
    target.
-/

namespace ClangDb

namespace Project

/-- A project with its configuration, the engine to use and a target. -/
structure Loaded where
  located : Located
  config : Config
  engineDir : Text
  target : Target

/-- The project that a value names, in the files as they are. -/
def located (host : Host) (project : Json) : Task Located := do
  Task.ofExcept (locate host (← Task.store) project)

/-- Loads a project.  An engine that is given takes the place of the
    configuration's. -/
def load (host : Host) (project engine index : Json) : Task Loaded := do
  let located ← located host project
  let config ← Config.load located.folder
  let engineDir := if engine.isTrue then Path.normalize engine.plain else config.engineDir
  if engineDir.isEmpty then Task.fail (.config .noEngineDir)
  let target ← Task.ofExcept (config.target index)
  return ⟨located, config, engineDir, target⟩

end Project

end ClangDb
