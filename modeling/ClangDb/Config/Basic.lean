import ClangDb.Config.Target
import ClangDb.Json.Writer
import ClangDb.World

/-! # Configurations

    A project's configuration says where the engine is and which targets there
    are.  It is a JSON file beside the project file; its format has a version,
    and a file of any other version is refused.
-/

namespace ClangDb

/-- A project's configuration. -/
structure Config where
  engineDir : Text
  engineVersion : Binary64
  /-- The number of the usual target, counted from one. -/
  defaultTarget : Int
  targets : List Target
  comment : Json
  deriving Repr, Inhabited

namespace Config

/-- The name of the file. -/
def fileName : Text := "UnrealNvim.json"

/-- The path of the file in a project's folder. -/
def pathIn (project : Path) : Path := project.join fileName

/-! ### Targets -/

/-- The target of a number counted from one. -/
def targetAt (c : Config) (index : Json) : Except Fault Target :=
  let count := c.targets.length
  let outside : Except Fault Target := .error (.config (.targetIndex index count))
  let pick := fun n : Int =>
    if n < 1 then outside else match c.targets[(n - 1).toNat]? with
      | some t => .ok t
      | none => outside
  match index with
  | .int n => pick n
  | .bool b => pick (if b then 1 else 0)
  | .number x =>
    if x.ltNat 1 || !(x.ltNat count || x = .ofInt count) then outside
    else .error (.wrongType (.position index))
  | v => .error (.wrongType (.order v))

/-- The target of a number, or the usual one. -/
def target (c : Config) (index : Json) : Except Fault Target :=
  match index with
  | .null => c.targetAt (.int (if c.defaultTarget = 0 then 1 else c.defaultTarget))
  | _ => c.targetAt index

/-! ### Reading values -/

/-- Reads an engine version from a number or a text. -/
def readVersion (value : Json) : Except Fault Binary64 :=
  let refused : Except Fault Binary64 := .error (.config (.engineVersion value))
  match value with
  | .bool b => .ok (.ofInt (if b then 1 else 0))
  | .int n =>
    match Binary64.ofInt n with
    | .infinite _ => .error .tooGreat
    | x => .ok x
  | .number x => .ok x
  | .string s =>
    match Number.fraction? s with
    | some x => .ok x
    | none => refused
  | _ => refused

/-- Reads an integer from a number or a text. -/
def readInteger (value : Json) : Except Fault Int :=
  match value with
  | .bool b => .ok (if b then 1 else 0)
  | .int n => .ok n
  | .number x => x.truncate.mapError .noInteger
  | .string s => (Number.integer s).mapError .integer
  | v => .error (.wrongType (.integer v))

/-- Reads an engine directory; a value that does not count is an empty one. -/
def readEngineDir (value : Json) : Except Fault Text :=
  if !value.isTrue then .ok []
  else match value with
    | .string s => .ok (Path.normalize s)
    | v => .error (.noOperation ⟨v, "replace"⟩)

/-- The version of the format that a file states. -/
def hasFormat (version : Json) : Bool :=
  match version with
  | .string s => s = formatVersion
  | _ => false

/-- Reads the members of a file, in the order in which their faults count. -/
def ofMembers (members : List (Text × Json)) : Except Fault Config := do
  let at? := fun key => Json.member? key members
  let version := (at? "version").getD .null
  if !hasFormat version then throw (.config (.incompatible version))
  let entries ← match at? "Targets" with
    | some (.array (entry :: more)) => pure (entry :: more)
    | _ => throw (.config .noTargets)
  let engineVersion ← readVersion ((at? "EngineVer").getD (.number (.ofInt 5)))
  let engineDir ← readEngineDir ((at? "EngineDir").getD .null)
  let number := (at? "DefaultTarget").getD .null
  let defaultTarget ← readInteger (if number.isTrue then number else .int 1)
  let targets ← entries.mapM Target.ofJson
  return ⟨engineDir, engineVersion, defaultTarget, targets, (at? "_comment").getD (.string [])⟩

/-- Reads the bytes of the file at a path. -/
def ofBytes (path : Text) (bytes : List UInt8) : Except Fault Config := do
  let text ← (Utf8.decode bytes).mapError .undecodable
  match Json.read (Text.universal text) with
  | .ok (.object members) => ofMembers members
  | .ok _ => throw (.config (.notObject path))
  | .error (.malformed flaw line column offset) =>
    throw (.config (.malformed (.malformed flaw line column offset)))
  | .error e => throw (.document e)

/-! ### Files -/

/-- The configuration as a JSON object; an empty comment is left out. -/
def toJson (c : Config) : Json :=
  let comment := if c.comment.isTrue then [("_comment", c.comment)] else []
  .ofFields ([("version", .string formatVersion)] ++ comment ++ [
    ("EngineDir", .string c.engineDir), ("EngineVer", .number c.engineVersion),
    ("DefaultTarget", .int c.defaultTarget), ("Targets", .array (c.targets.map Target.toJson))])

/-- The content of the file. -/
def toText (c : Config) : Text := c.toJson.write (.indented 4) ++ "\n"

/-- Whether the file of a project is there. -/
def isIn (project : Path) : Task Bool := do
  match (← Task.store).probe (pathIn project).toText with
  | .ok found => return found.isSome
  | .error e => Task.fail (.access (.file e))

/-- Reads the configuration in a project's folder. -/
def load (project : Path) : Task Config := do
  let path := (pathIn project).toText
  if !(← isIn project) then Task.fail (.config (.missing path))
  let bytes ← match (← Task.store).read path with
    | .ok bytes => pure bytes
    | .error (.file e) => Task.fail (.config (.unreadable e))
    | .error e => Task.fail (.access e)
  let config ← Task.ofExcept (ofBytes path bytes)
  Task.log .debug ("Loaded config " ++ path ++ " (engine " ++ config.engineDir ++ ")")
  return config

/-- Writes the configuration into a project's folder.  A file that is there stays,
    unless it may be overwritten. -/
def save (c : Config) (project : Path) (overwrite : Bool) : Task Path := do
  let path := pathIn project
  if (← isIn project) && !overwrite then Task.fail (.configExists path.toText)
  match Utf8.encode c.toText with
  | .error e => Task.fail (.access (.unencodable e))
  | .ok bytes =>
    match (← Task.store).write path.toText bytes with
    | .ok s => Task.setStore s
    | .error e => Task.fail (.access e)
  return path

/-- The usual configurations of a build. -/
def usualConfigurations : List Text := ["DebugGame", "Development", "Shipping"]

/-- The configuration of a new project: an editor target in each of the usual
    configurations. -/
def initial (projectName engineDir : Text) (version : Binary64) (platform : Text) : Config where
  engineDir := Path.normalize engineDir
  engineVersion := version
  defaultTarget := 1
  targets := usualConfigurations.map fun configuration =>
    ⟨.string projectName, .string configuration, true, .string [], .string platform⟩
  comment := .string "Generated by unreal-codegen init"

end Config

end ClangDb
