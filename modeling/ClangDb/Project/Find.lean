import ClangDb.World

/-! # Finding a project

    A project is named by its `.uproject` file, by its folder, or by any file
    inside it.  The project file is looked for in the folder and then in the
    folders above it; of several in one folder the least by name is taken.
-/

namespace ClangDb

namespace Project

/-- What the names of project files end in. -/
def fileSuffix : Text := ".uproject"

/-- The least of some texts. -/
def least? : List Text → Option Text
  | [] => none
  | s :: r =>
    match least? r with
    | some t => if s.before t then some s else some t
    | none => some s

/-- The project file of a folder. -/
def inFolder? (s : Store) (p : Place) : Option Place :=
  match s.entry? p with
  | some .folder =>
    (least? ((s.namesIn p).filter (·.endsWith fileSuffix))).map fun name => p ++ [name]
  | _ => none

/-- A place and the folders above it, the deepest first. -/
def ancestors (p : Place) : List Place :=
  (List.range (p.length + 1)).map fun n => p.take (p.length - n)

/-- The project file of the nearest folder that has one. -/
def nearest? (s : Store) (p : Place) : Option Place := (ancestors p).findSome? (inFolder? s)

/-! ### Homes -/

/-- The home folder that a path's first name stands for. -/
def homeOf? (host : Host) (name : Text) : Option Text :=
  match name with
  | .char '~' :: [] =>
    let home := host.home.trimRight (· = .char '/')
    some (if home.isEmpty then "/" else home)
  | .char '~' :: user => (host.accounts.find? fun (account, _) => account = user).map (·.2)
  | _ => none

/-- The path with a tilde at its start replaced by a home folder. -/
def expandHome (host : Host) (p : Path) : Except Fault Path :=
  match p.anchor, p.names with
  | .relative, (.char '~' :: user) :: more =>
    match homeOf? host (.char '~' :: user) with
    | some home =>
      if home.startsWith "~" then .error .unknownHome
      else
        let base := Path.ofText home
        .ok ⟨base.anchor, base.names ++ more⟩
    | none => .error .unknownHome
  | _, _ => .ok p

/-- The user's home folder. -/
def home (host : Host) : Except Fault Path := expandHome host (Path.ofText "~")

/-! ### The search -/

/-- What stands at a path, as far as that can be asked. -/
def probe (s : Store) (p : Path) : Except Fault (Option Entry) :=
  (s.probe p.toText).mapError fun e => .access (.file e)

/-- Whether what was found is a file. -/
def isFile : Option Entry → Bool
  | some (.file _ _) => true
  | _ => false

/-- The place that a path denotes by its names; it has to be a path. -/
def resolve (s : Store) (p : Path) : Except Fault Place :=
  if .char '\x00' ∈ p.toText then .error (.access .embeddedNull)
  else match Utf8.encode p.toText with
    | .error e => .error (.access (.unencodable e))
    | .ok _ => .ok (s.resolve p)

/-- The project file for a start: the start itself, or the nearest one above. -/
def find (host : Host) (s : Store) (start : Text) : Except Fault (Option Path) := do
  let start ← expandHome host (Path.ofText start)
  let itself ← if start.suffix = fileSuffix then (probe s start).map isFile else pure false
  if itself then return some (Store.pathOf (← resolve s start))
  let folder := if (← probe s start) = some .folder then start else start.parent
  return (nearest? s (← resolve s folder)).map Store.pathOf

/-- A project's file, its folder and its name. -/
structure Located where
  file : Path
  folder : Path
  name : Text
  deriving DecidableEq, Repr

/-- The project that a value names. -/
def locate (host : Host) (s : Store) (project : Json) : Except Fault Located := do
  if !project.isTrue then throw .noProject
  let start ← match project with
    | .string text => pure text
    | v => throw (.wrongType (.path v))
  match ← find host s start with
  | none => throw (.projectNotFound start)
  | some file => return ⟨file, file.parent, file.stem⟩

end Project

end ClangDb
