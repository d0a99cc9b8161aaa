import ClangDb.Database.Scan
import ClangDb.ResponseFile.Arguments
import ClangDb.ResponseFile.Conversion

/-! # The pass over a database

    A pass reads a database, makes the output folder, scans all lines and then
    runs the jobs in order, each on the store that the one before it left.  A job
    that fails is reported and leaves the store as it was; the others still run.
    Before the output folder is made nothing is written, so a pass that cannot
    start changes nothing but the folders above the output folder.
-/

namespace ClangDb

namespace Database

/-! ### Jobs -/

/-- Why a response file was not written. -/
inductive JobError where
  /-- The response file to convert is missing. -/
  | missing (sourceFile : Text) (e : ResponseFile.Missing)
  /-- The content has no bytes. -/
  | unencodable (path : Text) (e : Utf8.EncodeError)
  /-- The path cannot be written. -/
  | unwritable (path : Text) (e : FileError)
  deriving DecidableEq, Repr

/-- The sentence that reports a failed job. -/
def JobError.message : JobError → Text
  | .missing sourceFile e => "RSP extract failed for " ++ sourceFile ++ ": " ++ e.message
  | .unencodable path e => "Cannot write RSP: " ++ path ++ " (" ++ e.message ++ ")"
  | .unwritable path e => "Cannot write RSP: " ++ path ++ " (" ++ e.message ++ ")"

/-- The text of a response file. -/
def Content.render (s : Store) : Content → Except ResponseFile.Missing Text
  | .arguments tail => .ok (Arguments.body tail)
  | .conversion source engineDir dialect => ResponseFile.convert s dialect engineDir source

/-- What a job came to. -/
inductive JobResult where
  | written (s : Store)
  | failed (e : JobError)
  /-- The path is no path at all, which ends the pass. -/
  | aborted (e : AccessError)

/-- Renders and writes one response file. -/
def Job.run (s : Store) (job : Job) : JobResult :=
  match job.content.render s with
  | .error e => .failed (.missing job.sourceFile e)
  | .ok text =>
    match Utf8.encode text with
    | .error e => .failed (.unencodable job.path e)
    | .ok bytes =>
      match s.write job.path bytes with
      | .ok s => .written s
      | .error (.file e) => .failed (.unwritable job.path e)
      | .error e => .aborted e

/-- What running jobs came to. -/
structure Tally where
  written : Nat
  errors : List JobError
  deriving DecidableEq, Repr

/-- Runs jobs in order. -/
def runJobs (s : Store) : List Job → Store × Except AccessError Tally
  | [] => (s, .ok ⟨0, []⟩)
  | job :: more =>
    match job.run s with
    | .written s =>
      match runJobs s more with
      | (s, .ok tally) => (s, .ok { tally with written := tally.written + 1 })
      | (s, .error e) => (s, .error e)
    | .failed e =>
      match runJobs s more with
      | (s, .ok tally) => (s, .ok { tally with errors := e :: tally.errors })
      | (s, .error e) => (s, .error e)
    | .aborted e => (s, .error e)

/-! ### The whole pass -/

/-- What a pass is asked to do. -/
structure Request where
  input : Text
  outputDir : Text
  engineDir : Text
  skipEngine : Bool
  dialect : Dialect
  verbose : Bool
  deriving DecidableEq, Repr

/-- Why a pass did not come to an end. -/
inductive PassError where
  /-- The engine directory is blank. -/
  | noEngineDir
  | unreadable (input : Text) (e : FileError)
  | noOutputDir (path : Text) (e : FileError)
  /-- A path that is no path at all. -/
  | badPath (e : AccessError)
  deriving DecidableEq, Repr

/-- What a pass came to. -/
structure Report where
  /-- The converted database. -/
  text : Text
  filesWritten : Nat
  errors : List JobError
  /-- The number of lines with a command. -/
  entries : Nat
  deriving DecidableEq, Repr

/-- A pass's outcome together with the store and the records it leaves. -/
structure Pass where
  store : Store
  records : List Record
  outcome : Except PassError Report

/-- The options of a scan; both directories are normalized. -/
def Request.options (r : Request) : Options where
  outputDir := Path.withoutTrailing (Path.normalize r.outputDir)
  engineDir := Path.withoutTrailing (Path.normalize r.engineDir)
  skipEngine := r.skipEngine
  dialect := r.dialect
  verbose := r.verbose

/-- The sentence that closes a pass. -/
def Report.summary (r : Report) : Text :=
  "Processed " ++ Text.ofNat r.entries ++ " entries: " ++ Text.ofNat r.filesWritten
    ++ " response files, " ++ Text.ofNat r.errors.length ++ " errors"

/-- Scans lines and runs the jobs. -/
def passLines (s : Store) (o : Options) (lines : List Text) : Pass :=
  let scan := scanLines o .initial lines
  match runJobs s scan.jobs with
  | (s, .error e) => ⟨s, scan.records, .error (.badPath e)⟩
  | (s, .ok tally) =>
    let report : Report := ⟨scan.lines.flatten, tally.written, tally.errors, countCommands lines⟩
    let warnings := tally.errors.map fun e => (⟨.warning, e.message⟩ : Record)
    ⟨s, scan.records ++ warnings ++ [⟨.debug, report.summary⟩], .ok report⟩

/-- Converts a database and writes the response files it needs. -/
def pass (s : Store) (r : Request) : Pass :=
  if r.engineDir.trim.isEmpty then ⟨s, [], .error .noEngineDir⟩
  else
    let o := r.options
    match s.read r.input with
    | .error (.file e) => ⟨s, [], .error (.unreadable r.input e)⟩
    | .error e => ⟨s, [], .error (.badPath e)⟩
    | .ok bytes =>
      match s.makeFolders o.outputDir with
      | (s, .error (.file e)) => ⟨s, [], .error (.noOutputDir o.outputDir e)⟩
      | (s, .error e) => ⟨s, [], .error (.badPath e)⟩
      | (s, .ok ()) => passLines s o (Text.rawLines (Utf8.decodeEscaping bytes))

/-- Writes a converted database. -/
def save (s : Store) (path text : Text) : Except AccessError Store :=
  match Utf8.encode text with
  | .ok bytes => s.write path bytes
  | .error e => .error (.unencodable e)

end Database

end ClangDb
