import ClangDb.Engine.Version
import ClangDb.Project.Find

/-! # Installed engines

    A project file names its engine by a version or by an identifier.  On Windows
    the registry is asked first: it knows source builds by identifier and
    launcher installs by version.  Otherwise a version is looked for in the usual
    folders; an identifier is known to the registry alone.  A root counts only if
    it holds a folder `Engine`.
-/

namespace ClangDb

namespace Engine

/-- An engine's root and its version. -/
structure Install where
  root : Text
  version : Binary64
  deriving DecidableEq, Repr

/-- Whether a text is an identifier: five groups of hexadecimal digits with
    hyphens between them, perhaps in braces. -/
def isIdentifier (s : Text) : Bool :=
  let inner := s.trimBoth fun c => c = .char '{' || c = .char '}'
  let groups := Text.splitAt '-' inner
  groups.length = 5 && Number.isHexadecimal groups.flatten

/-! ### Candidates -/

/-- The name of the folder of an engine with a version. -/
def folderName (version : Text) : Text := "UE_" ++ version

/-- The folders in which an engine with an association may be, best first. -/
def candidates (host : Host) (association : Text) (identified : Bool) :
    Except Fault (List Path) := do
  if identified then return []
  let folder := folderName association
  match host.platform with
  | .windows =>
    let parents : List Text := [
      "C:\\Program Files\\Epic Games\\", "D:\\Program Files\\Epic Games\\",
      "E:\\Program Files\\Epic Games\\", "D:\\UnrealDev\\", "C:\\UnrealEngine\\"]
    return parents.map fun parent => Path.ofText (parent ++ folder)
  | .mac =>
    let home ← Project.home host
    return [
      Path.ofText ("/Users/Shared/Epic Games/" ++ folder),
      home.join ("UnrealEngine/" ++ folder), home.join ("dev/UnrealEngine/" ++ folder)]
  | .linux =>
    let home ← Project.home host
    return [
      home.join ("UnrealEngine/" ++ folder), home.join ("dev/UnrealEngine/" ++ folder),
      Path.ofText ("/opt/unreal-engine/" ++ folder), Path.ofText ("/opt/UnrealEngine/" ++ folder)]

/-- Whether a root holds an engine. -/
def holdsEngine (s : Store) (root : Path) : Except Fault Bool :=
  (Project.probe s (root.join "Engine")).map (· = some .folder)

/-- The first candidate that holds an engine. -/
def firstWithEngine (s : Store) : List Path → Except Fault (Option Path)
  | [] => .ok none
  | root :: more =>
    match holdsEngine s root with
    | .ok true => .ok (some root)
    | .ok false => firstWithEngine s more
    | .error e => .error e

/-! ### The registry -/

/-- A value of the registry. -/
def registered? (host : Host) (key name : Text) : Option Json := do
  let values ← host.registry
  let (_, value) ← values.find? fun (place, _) => place = (key, name)
  some value

/-- The root that the registry gives, if it holds an engine.  A root that cannot
    be asked counts as none. -/
def registeredRoot (host : Host) (s : Store) (key name : Text) : Except Fault (Option Text) :=
  match registered? host key name with
  | none => .ok none
  | some (.string root) =>
    match holdsEngine s (Path.ofText root) with
    | .ok true => .ok (some root)
    | _ => .ok none
  | some v => .error (.wrongType (.path v))

/-- The key of the source builds. -/
def buildsKey : Text := "HKCU\\Software\\Epic Games\\Unreal Engine\\Builds"

/-- The key of an engine that the launcher installed. -/
def launcherKey (version : Text) : Text := "HKLM\\SOFTWARE\\EpicGames\\Unreal Engine\\" ++ version

/-- The root that the registry gives for an association. -/
def rootInRegistry (host : Host) (s : Store) (association : Text) (identified : Bool) :
    Except Fault (Option Text) :=
  if identified then registeredRoot host s buildsKey association
  else registeredRoot host s (launcherKey association) "InstalledDirectory"

/-! ### Detection -/

/-- The root of the engine with an association. -/
def root (host : Host) (s : Store) (association : Text) : Except Fault (Option Text) := do
  let identified := isIdentifier association
  let registered ← if host.platform = .windows then rootInRegistry host s association identified
    else pure none
  match registered with
  | some root => return some root
  | none =>
    let found ← firstWithEngine s (← candidates host association identified)
    return found.map Path.toText

/-- The engine with an association. -/
def install (host : Host) (s : Store) (association : Text) : Except Fault (Option Install) := do
  match ← root host s association with
  | none => return none
  | some found =>
    let found := Path.normalize found
    return some ⟨found, ← version s found⟩

/-- The association that a project file's document states. -/
def association (document : Json) : Except Fault (Option Text) :=
  match (document.get? "EngineAssociation").getD .null with
  | .string s => .ok (if s.isEmpty then none else some s)
  | v => if v.isTrue then .error (.noOperation ⟨v, "strip"⟩) else .ok none

/-- Detects the engine of a project file.  A file that cannot be read, or is not
    JSON, has none. -/
def detect (host : Host) (file : Text) : Task (Option Install) := do
  let file := (Path.ofText file).toText
  let s ← Task.store
  let unreadable : Text → Task (Option Install) := fun reason => do
    Task.log .debug ("Cannot read " ++ file ++ ": " ++ reason)
    return none
  match s.read file with
  | .error (.file e) => unreadable e.message
  | .error e => Task.fail (.access e)
  | .ok bytes =>
    match Utf8.decode bytes with
    | .error e => Task.fail (.undecodable e)
    | .ok text =>
      match Json.read (Text.universal text) with
      | .error (.malformed flaw line column offset) =>
        unreadable (Json.ReadError.malformed flaw line column offset).message
      | .error e => Task.fail (.document e)
      | .ok document =>
        Task.ofExcept do
          match ← association document with
          | none => return none
          | some name => install host s name

end Engine

end ClangDb
