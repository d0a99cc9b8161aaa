import ClangDb.Database.Pool
import ClangDb.Project.Answer

/-! # Converting a database

    A database is converted and written to a file, by default one beside the
    response files.  The pass has one worker unless more are asked for; several
    take their turns in an order that is not known beforehand and is therefore
    given.
-/

namespace ClangDb

namespace Project

/-- The name of a database. -/
def databaseName : Text := "compile_commands.json"

/-- A pass as an operation. -/
def runPass (r : Database.Request) (workers : Int := 1) (turns : List Nat := []) :
    Task Database.Report := do
  let pass := Database.passBy workers turns (← Task.store) r
  Task.setStore pass.store
  Task.report pass.records
  Task.ofExcept (pass.outcome.mapError .pass)

/-- Whether a pass that could not start is a failure of what was given. -/
def passFailure (e : Database.PassError) : Option Answer :=
  match e with
  | .badPath (.file _) => none
  | e => some (.failure e.message [])

/-- Converts a database and writes the result. -/
def process (r : Database.Request) (output : Option Text) (workers : Int := 1)
    (turns : List Nat := []) : Task Answer := do
  let output := output.getD ((Path.ofText r.outputDir).join databaseName).toText
  match ← (runPass r workers turns).outcome with
  | .error (.pass e) =>
    match passFailure e with
    | some answer => return answer
    | none => Task.fail (.pass e)
  | .error e => Task.fail e
  | .ok report =>
    match Database.save (← Task.store) output report.text with
    | .error (.file e) =>
      return .failure ("Cannot write output: " ++ output ++ " (" ++ e.message ++ ")") []
    | .error e => Task.fail (.access e)
    | .ok s =>
      Task.setStore s
      return .done "Generation completed successfully" [
        ("files_processed", .int report.filesWritten),
        ("errors", .array (report.errors.map fun e => .string e.message)),
        ("entries", .int report.entries), ("output_file", .string output)]

end Project

end ClangDb
