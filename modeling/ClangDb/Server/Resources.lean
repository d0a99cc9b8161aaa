import ClangDb.Project.Database
import ClangDb.Project.Load

/-! # The server's resources

    The host's project is the one resource there is.  Its name ends the address
    under which it is listed; any address that begins in the same way is read as
    that project.
-/

namespace ClangDb

namespace Server

/-- What the addresses of projects begin with. -/
def projectAddress : Text := "unreal://project/"

/-- The host's project, or why it is not found. -/
def hostProject (host : Host) : Task (Except Answer Project.Located) :=
  (Project.located host (.string host.project)).orFailure

/-- The resource of a project in a list. -/
def resource (name : Text) : Json := .ofFields [
  ("uri", .string (projectAddress ++ name)), ("name", .string ("Project: " ++ name)),
  ("description", .string "Unreal Engine project build configuration"),
  ("mimeType", .string "application/json")]

/-- Lists the resources: none if there is no project. -/
def resources (host : Host) : Task (List Json) := do
  if host.project.isEmpty then return []
  match ← hostProject host with
  | .ok project => return [resource project.name]
  | .error _ => return []

/-- An error in place of a resource. -/
def errorText (message : Text) : Text :=
  (Json.ofFields [("error", .string message)]).write .oneLine

/-- What is told of a configuration, or why it is refused. -/
def configFields (project : Path) : Task (List (String × Json)) := do
  match ← (Config.load project).outcome with
  | .ok c => return [
      ("engine_dir", .string c.engineDir), ("engine_version", .number c.engineVersion),
      ("targets", .array (c.targets.map Target.toJson)), ("default_target", .int c.defaultTarget)]
  | .error (.config e) => return [("config_error", .string e.message)]
  | .error e => Task.fail e

/-- The path of a project's database, if it is there. -/
def databaseValue (project : Path) : Task Json := do
  let path := project.join Project.databaseName
  let found ← Task.ofExcept (Project.probe (← Task.store) path)
  return if found.isSome then .string path.toText else .null

/-- Reads the resource at an address. -/
def readResource (host : Host) (address : Text) : Task Text := do
  if !address.startsWith projectAddress || host.project.isEmpty then
    return errorText ("Unknown resource: " ++ address)
  match ← hostProject host with
  | .error answer => return errorText answer.message
  | .ok project =>
    let config ← configFields project.folder
    let database ← databaseValue project.folder
    let named : List (String × Json) :=
      [("name", .string project.name), ("project_file", .string project.file.toText)]
    return (Json.ofFields (named ++ config ++ [("compile_commands", database)])).write (.indented 2)

end Server

end ClangDb
