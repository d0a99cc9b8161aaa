import ClangDb.CommandLine.Invocation

/-! # The program

    The command line on a real machine.  The files below the working folder are
    read into a store, the command is carried out there, and what it changed is
    written back.  Files elsewhere are not seen, and no other program is started:
    a tool of the engine counts as a file that cannot be run, so a database has to
    be there already, and a command to build or to launch is shown on a dry run.
-/

namespace ClangDb

namespace Machine

/-- The string of a text, if it has no lone surrogate. -/
def stringOf? (s : Text) : Option String :=
  let char? : CodePoint → Option Char | .char c => some c | .lone _ => none
  (s.mapM char?).map String.ofList

/-- The names on a path of the machine. -/
def placeOf (path : String) : Place :=
  (Text.splitAt '/' (Text.ofString path)).filter (· ≠ [])

/-! ### Reading the files -/

/-- What stands at an entry of a folder, and below it.  Links are left out. -/
partial def entriesAt (e : IO.FS.DirEntry) : IO (List (Place × Entry)) := do
  let place := placeOf e.path.toString
  match (← e.path.symlinkMetadata).type with
  | .dir => return (place, .folder) :: (← (← e.path.readDir).toList.mapM entriesAt).flatten
  | .file => return [(place, .file (← IO.FS.readBinFile e.path).toList none)]
  | _ => return []

/-- The store of the working folder: the folders that lead to it, and what is
    below. -/
def readStore : IO Store := do
  let folder ← IO.currentDir
  let place := placeOf folder.toString
  let above := (List.range place.length).map fun n => (place.take (n + 1), Entry.folder)
  return ⟨place, above ++ (← (← folder.readDir).toList.mapM entriesAt).flatten⟩

/-! ### Writing them back -/

/-- The entries of a store that another does not have. -/
def changes (before after : Store) : List (Place × Entry) :=
  after.entries.filter fun (p, e) => before.entry? p ≠ some e

/-- Writes one entry. -/
def writeEntry (p : Place) (e : Entry) : IO Unit := do
  match stringOf? (Store.pathOf p).toText with
  | none => pure ()
  | some path =>
    match e with
    | .folder => IO.FS.createDirAll path
    | .file bytes _ => IO.FS.writeBinFile path (ByteArray.mk bytes.toArray)

/-! ### Running a command -/

/-- Prints a text to a stream. -/
def print (stream : IO.FS.Stream) (s : Text) : IO Unit := do
  match Utf8.encode s with
  | .ok bytes => stream.write (ByteArray.mk bytes.toArray)
  | .error e => stream.putStrLn ((stringOf? e.message).getD "")

/-- Whether the value of a variable turns it on. -/
def isOn (value : Option String) : Bool :=
  ["1", "true", "yes"].contains (value.getD "").toLower

/-- The host that the program runs on. -/
def host (home : Option String) : Host where
  platform := .linux
  home := Text.ofString (home.getD "/")
  accounts := []
  registry := none
  project := []

/-- How the program is called. -/
def usage : Text :=
  "usage: " ++ CommandLine.programName ++ " command ...\n\ncommands: "
    ++ Text.join ", " (CommandLine.Command.all.map CommandLine.Command.name) ++ "\n"

/-- Carries out a command line and returns the exit code. -/
def run (arguments : List String) : IO UInt32 := do
  let out ← IO.getStdout
  let err ← IO.getStderr
  match CommandLine.Invocation.read (arguments.map Text.ofString) with
  | .error e =>
    match e.line with
    | none => print out usage
    | some line => print err (line ++ "\n")
    return UInt32.ofNat e.code
  | .ok i =>
    let before ← readStore
    let debug := isOn (← IO.getEnv "UNREAL_CODEGEN_DEBUG")
    let task := i.run (host (← IO.getEnv "HOME")) debug
    let (outcome, w) := (ExceptT.run task).run ⟨before, [], []⟩
    for (p, e) in changes before w.store do writeEntry p e
    match outcome with
    | .ok finished =>
      print err finished.errors
      print out finished.output
      return UInt32.ofNat finished.code
    | .error e =>
      print err (CommandLine.programName ++ ": " ++ e.message ++ "\n")
      return 1

end Machine

end ClangDb

/-- The program. -/
def main (arguments : List String) : IO UInt32 := ClangDb.Machine.run arguments
