import ClangDb.Database.Job
import ClangDb.Database.Literal
import ClangDb.Log
import ClangDb.Path.Separator
import ClangDb.Text.Blank
import ClangDb.Text.Lines

/-! # The scan

    A database is scanned line by line.  A line with a `"file":` value is
    remembered; the next line with a `"command":` key belongs to that file and is
    redirected to a response file.  Every other line is copied.

    A command is redirected only if its compiler is found, and if it holds no
    response-file reference that does not end.  Entries of the engine can be
    skipped: their lines are redirected all the same, but no job is scheduled.
-/

namespace ClangDb

namespace Database

/-- What a scan is told. -/
structure Options where
  /-- Where response files of inline commands go. -/
  outputDir : Text
  engineDir : Text
  /-- Whether entries of the engine get no response file. -/
  skipEngine : Bool
  dialect : Dialect
  /-- Whether each entry that is not skipped is reported. -/
  verbose : Bool
  deriving DecidableEq, Repr

/-- What the scan looks for. -/
inductive Phase where
  | file
  | command
  deriving DecidableEq, Repr, Inhabited

/-- The name of a phase. -/
def Phase.name : Phase → Text
  | .file => "scanning_for_file"
  | .command => "scanning_for_command"

/-- Where the scan stands: what it looks for, and the value of the last file
    line, with its escapes. -/
structure State where
  phase : Phase
  currentFile : Text
  deriving DecidableEq, Repr

/-- Before the first line. -/
def State.initial : State := ⟨.file, []⟩

/-- Whether an entry gets no response file. -/
def Options.skips (o : Options) (file : Text) : Bool :=
  Path.isUnderRoot file o.engineDir && o.skipEngine

/-! ### One command -/

/-- What becomes of a command line. -/
inductive Outcome where
  /-- No compiler is found in it. -/
  | noCompiler
  /-- A response-file reference in it does not end. -/
  | unterminated
  /-- The new line, and the job that writes the file it points at. -/
  | redirected (line : Text) (job : Job)
  deriving DecidableEq, Repr

/-- What begins a reference to a response file. -/
def reference : Text := "@\\\""

/-- A quote inside a command. -/
def escapedQuote : Text := "\\\""

/-- A command line up to and including its compiler, and what follows. -/
structure Command where
  indent : Text
  compiler : Text
  tail : Text
  deriving DecidableEq, Repr

/-- Finds the compiler of a command line that holds the key. -/
def Command.ofLine? (dialect : Dialect) (line : Text) : Option Command := do
  let (indent, value) ← Text.cut? commandKey line
  let (before, tail) ← Text.cut? dialect.compilerEnd value
  return ⟨indent, (before ++ dialect.compilerEnd).trim, tail⟩

/-- The new line of a command, up to the path of its response file. -/
def Command.lead (c : Command) (path : Text) : Text :=
  c.indent ++ commandKey ++ " " ++ c.compiler ++ " @\\\"" ++ Path.escape path ++ "\\\""

/-- Points a command line of a file at a response file. -/
def redirectCommand (o : Options) (file line : Text) : Outcome :=
  match Command.ofLine? o.dialect line with
  | none => .noCompiler
  | some command =>
    match Text.cut? reference command.tail with
    | some (_, rest) =>
      match Text.cut? escapedQuote rest with
      | none => .unterminated
      | some (referenced, _) =>
        let source := Path.normalize referenced
        let path := copyName o.dialect source
        .redirected (command.lead path ++ "\",")
          ⟨path, file, .conversion source o.engineDir o.dialect⟩
    | none =>
      let path := o.outputDir ++ "/" ++ flatName file
      .redirected (command.lead path ++ " " ++ Path.escape file ++ "\",")
        ⟨path, file, .arguments command.tail⟩

/-! ### One line -/

/-- What one line gives. -/
structure Step where
  line : Text
  job : Option Job
  state : State
  records : List Record
  deriving DecidableEq, Repr

/-- The report on a command line. -/
def Outcome.records (o : Options) (file : Text) (outcome : Outcome) : List Record :=
  (if o.verbose && !o.skips file then [⟨.info, "Processing: " ++ file⟩] else [])
    ++ match outcome with
      | .noCompiler => [⟨.debug, "No compiler found, passing through: " ++ file⟩]
      | .unterminated => [⟨.debug, "Unterminated response file reference: " ++ file⟩]
      | .redirected _ _ => []

/-- Scans one line, which keeps its ending. -/
def scanLine (o : Options) (s : State) (raw : Text) : Step :=
  let (line, ending) := Text.splitEnding raw
  if line.contains commandKey then
    match s.phase with
    | .file =>
      ⟨raw, none, s, [⟨.debug, "Command without a preceding file entry, passing through"⟩]⟩
    | .command =>
      let outcome := redirectCommand o s.currentFile line
      let records := outcome.records o s.currentFile
      let next := { s with phase := .file }
      match outcome with
      | .redirected line job =>
        ⟨line ++ ending, if o.skips s.currentFile then none else some job, next, records⟩
      | _ => ⟨raw, none, next, records⟩
  else
    match fileValue? line with
    | some file => ⟨raw, none, ⟨.command, file⟩, []⟩
    | none => ⟨raw, none, s, []⟩

/-! ### All lines -/

/-- What a scan gives. -/
structure Scan where
  lines : List Text
  jobs : List Job
  records : List Record
  deriving DecidableEq, Repr

/-- Scans lines one after another. -/
def scanLines (o : Options) : State → List Text → Scan
  | _, [] => ⟨[], [], []⟩
  | s, raw :: more =>
    let step := scanLine o s raw
    let rest := scanLines o step.state more
    ⟨step.line :: rest.lines, step.job.toList ++ rest.jobs, step.records ++ rest.records⟩

/-- The number of lines that hold a command key. -/
def countCommands (lines : List Text) : Nat := lines.countP (·.contains commandKey)

end Database

end ClangDb
