import ClangDb.CommandLine.Grammar
import ClangDb.Platform

/-! # The commands of the program

    Each command has a grammar of its own, whose flags may be abbreviated.  The
    program itself knows no flag but the one for help; its first operand names
    the command, and all that comes after that is the command's.
-/

namespace ClangDb

namespace CommandLine

/-- The name of the program. -/
def programName : Text := "unreal-codegen"

/-- What the program can be told to do. -/
inductive Command where
  /-- Writes a project's configuration. -/
  | init
  /-- Generates a project's database. -/
  | generate
  /-- Builds a project. -/
  | build
  /-- Launches a project. -/
  | run
  /-- Converts a database. -/
  | process
  deriving DecidableEq, Repr

namespace Command

/-- All commands, in the order in which they are listed. -/
def all : List Command := [.init, .generate, .build, .run, .process]

/-- The name of a command. -/
def name : Command → Text
  | .init => "init"
  | .generate => "gen"
  | .build => "build"
  | .run => "run"
  | .process => "process"

/-- The command with a name. -/
def ofName? (name : Text) : Option Command := all.find? fun c => c.name = name

end Command

/-! ### Flags -/

/-- The flag that shows the help. -/
def helpFlag : Flag := ⟨["-h", "--help"], "help", .help, false, .null⟩

/-- A flag that is off unless it is given. -/
def switchFlag (name : Text) : Flag := ⟨["--" ++ name], name, .switch, false, .bool false⟩

/-- A flag with a value that need not be given. -/
def valueFlag (name : Text) (kind : Kind) : Flag := ⟨["--" ++ name], name, kind, false, .null⟩

/-- A flag with a text that has to be given. -/
def requiredFlag (name : Text) : Flag := ⟨["--" ++ name], name, .text, true, .null⟩

/-- The flag for the number of workers; results do not depend on it. -/
def jobsFlag : Flag := ⟨["--jobs"], "jobs", .integer, false, .int 1⟩

/-- The flags of a command, without the one for help. -/
def Command.flags : Command → List Flag
  | .init => [requiredFlag "project", valueFlag "engine" .text, switchFlag "verbose",
      switchFlag "force"]
  | .generate => [requiredFlag "project", valueFlag "engine" .text, valueFlag "target" .integer,
      switchFlag "verbose", switchFlag "with-engine", switchFlag "headers", switchFlag "skip-ubt",
      jobsFlag, valueFlag "timeout" .fraction]
  | .build | .run => [requiredFlag "project", valueFlag "target" .integer, switchFlag "verbose",
      switchFlag "dry-run", valueFlag "timeout" .fraction]
  | .process => [requiredFlag "output-dir", requiredFlag "engine", valueFlag "out" .text,
      switchFlag "with-engine", valueFlag "dialect" (.choice (Dialect.all.map Dialect.name)),
      jobsFlag, switchFlag "verbose"]

/-! ### Grammars -/

/-- The grammar of a command. -/
def Command.grammar (c : Command) : Grammar where
  program := programName ++ " " ++ c.name
  flags := helpFlag :: c.flags
  operand := if c = .process then some "input" else none
  abbreviates := true

/-- The grammar of the program before the command. -/
def programGrammar : Grammar where
  program := programName
  flags := [helpFlag]
  operand := some "command"
  abbreviates := false

/-! ### Reading -/

/-- A command with what was read for it. -/
structure Invocation where
  command : Command
  reading : Reading
  deriving Repr

/-- The first operand with all that follows it, or what is left over if there is
    none.  A mark that something follows counts as an operand. -/
def findCommand (r : Reading) : Roles → Except Halt (Reading × Option (Text × List Text))
  | [] => .ok (r, none)
  | (argument, role) :: rest =>
    match role with
    | .unknown => findCommand (r.leave [argument]) rest
    | .flag f _ attached =>
      match takeFlag programGrammar r f attached [] with
      | .ok (r, _) => findCommand r rest
      | .error e => .error e
    | .operand => .ok (r, some (argument, rest.map (·.1)))
    | .mark =>
      if rest.isEmpty then .ok (r.leave [argument], none)
      else .ok (r, some (argument, rest.map (·.1)))

/-- Reads a whole command line. -/
def Invocation.read (arguments : List Text) : Except Exit Invocation := do
  let complain := Exit.complaint programName
  let roles ← (programGrammar.roles arguments).mapError complain
  let (before, found) ← match findCommand programGrammar.initial roles with
    | .ok found => pure found
    | .error .help => throw .help
    | .error (.complaint e) => throw (complain e)
  let (name, rest) ← match found with
    | some found => pure found
    | none => throw (complain (.required (programGrammar.missing before)))
  let command ← match Command.ofName? name with
    | some command => pure command
    | none => throw (complain (.invalidChoice "command" name (Command.all.map Command.name)))
  let reading ← command.grammar.read rest
  match before.left ++ reading.left with
  | [] => return ⟨command, reading⟩
  | left => throw (complain (.unrecognized left))

end CommandLine

end ClangDb
