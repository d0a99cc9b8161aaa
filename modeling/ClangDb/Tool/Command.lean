import ClangDb.Config.Target
import ClangDb.Engine.Version

/-! # Commands of engine tools

    Where the tools of an engine are, and the commands that drive them.  The
    arguments of a command come from a target, whose values may have any JSON
    type; a command with an argument that is no text can be built, but neither
    shown nor run.
-/

namespace ClangDb

namespace Tool

/-- The path of the build tool; engines before version 5 keep it one folder
    higher. -/
def buildTool (platform : Platform) (engineDir : Text) (version : Option Binary64) : Text :=
  let name : Text := match platform with
    | .windows => "UnrealBuildTool.exe"
    | _ => "UnrealBuildTool"
  let folder := engineDir ++ "/Engine/Binaries/DotNET/"
  match version with
  | some x => if x.ltNat 5 then folder ++ name else folder ++ "UnrealBuildTool/" ++ name
  | none => folder ++ "UnrealBuildTool/" ++ name

/-- The path of the script that builds a project. -/
def buildScript (platform : Platform) (engineDir : Text) : Text :=
  let folder := engineDir ++ "/Engine/Build/BatchFiles/"
  match platform with
  | .windows => folder ++ "Build.bat"
  | .mac => folder ++ "Mac/Build.sh"
  | .linux => folder ++ "Linux/Build.sh"

/-- The path of the binary with a name in a folder of binaries. -/
def binary (platform : Platform) (folder name : Text) : Text :=
  let place := folder ++ "/" ++ platform.name ++ "/" ++ name
  match platform with
  | .windows => place ++ ".exe"
  | .mac => place ++ ".app/Contents/MacOS/" ++ name
  | .linux => place

/-- The path of the program to launch: the project's binary if a project is
    given, else the editor. -/
def launched (platform : Platform) (engineDir : Text) (project : Option (Text × Text))
    (suffix : Text) : Text :=
  match project with
  | some (folder, name) => binary platform (folder ++ "/Binaries") (name ++ suffix)
  | none => binary platform (engineDir ++ "/Engine/Binaries") ("UnrealEditor" ++ suffix)

/-! ### Arguments -/

/-- The arguments that name a target. -/
def targetArguments (t : Target) : Except Fault (List Json) := do
  return [.string (← t.fullName), t.configuration, t.platform]

/-- The extra flags of a target as arguments. -/
def extraArguments (t : Target) : Except Fault (List Json) :=
  match t.extraFlags with
  | .string s => ((Shell.words s).mapError .words).map fun words => words.map .string
  | v => if v.isTrue then .error (.noOperation ⟨v, "read"⟩) else .ok []

/-- The argument that names a project file. -/
def projectArgument (project : Text) : Json := .string ("-project=" ++ project)

/-- The command that makes the build tool write a database. -/
def databaseCommand (tool project : Text) (t : Target) : Except Fault (List Json) := do
  let flags ← extraArguments t
  let target ← targetArguments t
  return [.string tool, .string "-mode=GenerateClangDatabase", projectArgument project,
    .string "-game", .string "-engine"] ++ flags ++ target

/-- The command that makes the build tool generate headers alone. -/
def headersCommand (tool project : Text) (t : Target) : Except Fault (List Json) := do
  let flags ← extraArguments t
  let target ← targetArguments t
  return [.string tool, projectArgument project] ++ flags ++ target ++ [.string "-headers"]

/-- The command that builds a project. -/
def buildCommand (script project : Text) (t : Target) : Except Fault (List Json) := do
  let target ← targetArguments t
  let flags ← extraArguments t
  return [.string script] ++ target ++ [projectArgument project, .string "-waitmutex"] ++ flags

/-- The project that a binary is launched for, if both its folder and its name
    are given. -/
def launchedProject (folder name : Text) : Option (Text × Text) :=
  if folder.isEmpty || name.isEmpty then none else some (folder, name)

/-- The command that launches the editor with a project, or the project's own
    binary. -/
def runCommand (platform : Platform) (engineDir folder name project : Text) (t : Target) :
    List Json :=
  if t.withEditor then
    [.string (launched platform engineDir none t.binarySuffix), .string project]
  else [.string (launched platform engineDir (launchedProject folder name) t.binarySuffix)]

/-! ### Showing a command -/

/-- Whether a text is found in a value: as a part of a text, or as an element or
    a key. -/
def holds (value : Json) (s : Text) : Except Fault Bool :=
  let isText : Json → Bool
    | .string v => v = s
    | _ => false
  match value with
  | .string v => .ok (v.contains s)
  | .array elements => .ok (elements.any isText)
  | .object members => .ok (members.any fun (key, _) => key = s)
  | v => .error (.wrongType (.search v))

/-- An argument in quotes if it holds a space and no quote. -/
def shownArgument (argument : Json) : Except Fault Json := do
  if !(← holds argument " ") then return argument
  if ← holds argument "\"" then return argument
  return .string ("\"" ++ argument.plain ++ "\"")

/-- Arguments as texts; the first is at a position. -/
def texts : Nat → List Json → Except Fault (List Text)
  | _, [] => .ok []
  | n, .string s :: r => (texts (n + 1) r).map (s :: ·)
  | n, v :: _ => .error (.wrongType (.argument n v))

/-- A command on one line. -/
def shownCommand (command : List Json) : Except Fault Text := do
  let shown ← command.mapM shownArgument
  return Text.join " " (← texts 0 shown)

end Tool

end ClangDb
