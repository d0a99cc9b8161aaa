import ClangDb.CommandLine.Command
import ClangDb.Project.Generate
import ClangDb.Project.Init
import ClangDb.Project.Launch

/-! # Carrying out a command

    A command ends with an answer, which is printed as JSON; the records that
    matter enough are printed as errors, one on a line.  The exit code says
    whether the answer is a success.
-/

namespace ClangDb

namespace CommandLine

/-! ### Values that were read -/

namespace Reading

/-- The value of a flag or an operand. -/
def value (r : Reading) (key : Text) : Json := (Json.member? key r.values).getD .null

/-- A value that is a text. -/
def text? (r : Reading) (key : Text) : Option Text :=
  match r.value key with
  | .string s => some s
  | _ => none

/-- Whether a switch is on. -/
def isOn (r : Reading) (key : Text) : Bool := (r.value key).isTrue

/-- The time that a tool may take. -/
def limit (r : Reading) : Option Seconds :=
  match r.value "timeout" with
  | .number x => some (.fraction x)
  | _ => none

/-- The number of workers of a conversion. -/
def workers (r : Reading) : Int :=
  match r.value "jobs" with
  | .int n => n
  | _ => 1

end Reading

/-! ### Commands -/

/-- The request for converting a database. -/
def databaseRequest (host : Host) (r : Reading) : Database.Request where
  input := (r.text? "input").getD []
  outputDir := (r.text? "output-dir").getD []
  engineDir := (r.text? "engine").getD []
  skipEngine := !r.isOn "with-engine"
  dialect := ((r.text? "dialect").bind Dialect.ofName?).getD host.platform.dialect
  verbose := r.isOn "verbose"

/-- The options of a run. -/
def generateOptions (r : Reading) : Project.GenerateOptions where
  withEngine := r.isOn "with-engine"
  headers := r.isOn "headers"
  skipDatabase := r.isOn "skip-ubt"
  verbose := r.isOn "verbose"
  limit := r.limit
  workers := r.workers

/-- The errors that an answer lists. -/
def listedErrors (a : Answer) : List Text :=
  match Json.member? "errors" a.details with
  | some (.array errors) => errors.map Json.plain
  | _ => []

namespace Invocation

/-- Carries out a command.  The errors of a run are reported once more at its
    end. -/
def perform (host : Host) (i : Invocation) : Task Answer := do
  let r := i.reading
  let project := r.value "project"
  match i.command with
  | .init => Project.init host project (r.value "engine") (r.isOn "force")
  | .generate =>
    let answer ← Project.generate host project (r.value "engine") (r.value "target")
      (generateOptions r)
    Task.report ((listedErrors answer).map fun e => ⟨.warning, "Warning: " ++ e⟩)
    return answer
  | .build => Project.build host project (r.value "target") (r.isOn "dry-run") r.limit
  | .run => Project.run host project (r.value "target") (r.isOn "dry-run") r.limit
  | .process => Project.process (databaseRequest host r) (r.text? "out") r.workers

/-! ### Printing -/

/-- The least level that is printed. -/
def leastLevel (debug verbose : Bool) : Level :=
  if debug then .debug else if verbose then .info else .warning

/-- A record as it is printed. -/
def shownRecord (r : Record) : Text :=
  programName ++ " " ++ r.level.name ++ ": " ++ r.message ++ "\n"

/-- What a command leaves. -/
structure Finished where
  code : Nat
  output : Text
  errors : Text
  deriving DecidableEq, Repr

/-- What a command with an answer leaves, of the records that it made. -/
def finished (debug : Bool) (i : Invocation) (records : List Record) (answer : Answer) :
    Finished where
  code := if answer.success then 0 else 1
  output := answer.toJson.write (.indented 2) ++ "\n"
  errors := ((Record.atLeast (leastLevel debug (i.reading.isOn "verbose")) records).map
    shownRecord).flatten

/-- Carries out a command and prints. -/
def run (host : Host) (debug : Bool) (i : Invocation) : Task Finished := do
  let earlier := (← get).records.length
  let answer ← i.perform host
  return i.finished debug ((← get).records.drop earlier) answer

end Invocation

end CommandLine

end ClangDb
