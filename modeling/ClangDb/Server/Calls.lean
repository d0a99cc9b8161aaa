import ClangDb.Project.Generate
import ClangDb.Project.Init
import ClangDb.Project.Launch
import ClangDb.Server.Tools

/-! # Calls of the server's tools

    A call names a tool and gives its arguments as an object.  Whatever goes
    wrong is an answer; a fault that a tool leaves to its caller is reported as
    an error besides.
-/

namespace ClangDb

namespace Server

/-- The members of the arguments of a call; arguments that do not count are none. -/
def argumentsOf (arguments : Json) : Except Fault (List (Text × Json)) :=
  if !arguments.isTrue then .ok []
  else match arguments with
    | .object members => .ok members
    | v => .error (.noOperation ⟨v, "get"⟩)

/-- The project of a call, or else the host's. -/
def projectOf (host : Host) (members : List (Text × Json)) : Json :=
  let given := (Json.member? "project" members).getD .null
  if given.isTrue then given else .string host.project

/-- Carries out a tool. -/
def Tool.perform (host : Host) (t : Tool) (members : List (Text × Json)) : Task Answer :=
  let value := fun key : String => (Json.member? (Text.ofString key) members).getD .null
  let project := projectOf host members
  match t with
  | .generate => Project.generate host project .null (value "target") {
      withEngine := (value "with_engine").isTrue
      headers := (value "headers").isTrue
      skipDatabase := (value "skip_ubt").isTrue
      verbose := false
      limit := none }
  | .init => Project.init host project (value "engine") false
  | .buildCommand => Project.build host project (value "target") true none
  | .runCommand => Project.run host project (value "target") true none

/-- Carries out the tool with a name. -/
def dispatch (host : Host) (name : Text) (arguments : Json) : Task Answer := do
  let members ← Task.ofExcept (argumentsOf arguments)
  match Tool.ofName? name with
  | some t => t.perform host members
  | none => return .failure ("Unknown tool: " ++ name) []

/-- Answers a call with a text. -/
def call (host : Host) (name : Text) (arguments : Json) : Task Text := do
  let answer ← match ← (dispatch host name arguments).outcome with
    | .ok answer => pure answer
    | .error e => do
      Task.log .error ("Tool " ++ name ++ " failed")
      pure (Answer.failure e.message [])
  return answer.toJson.write (.indented 2)

end Server

end ClangDb
