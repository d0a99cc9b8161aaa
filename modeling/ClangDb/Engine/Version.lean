import ClangDb.Config.Basic

/-! # Engine versions

    An engine states its version in a file of its own, as a major and a minor
    number.  Where that file cannot be used, the version is read off the engine's
    path, at the first place that looks like `UE_5.3`, `UE-5.3` or `UE5.3`; where
    there is none, a usual version is taken.
-/

namespace ClangDb

namespace Engine

/-- The version of an engine that does not state one. -/
def usualVersion : Binary64 := .ofInt 5

/-! ### Versions in paths -/

/-- The digits of a major and a minor number at the beginning of a text. -/
def numbersAt? (s : Text) : Option (Text × Text) :=
  match s.span CodePoint.isDigit with
  | ([], _) => none
  | (major, .char '.' :: r) =>
    match r.takeWhile CodePoint.isDigit with
    | [] => none
    | minor => some (major, minor)
  | _ => none

/-- The version at the beginning of a text. -/
def versionAt? : Text → Option (Text × Text)
  | .char 'U' :: .char 'E' :: .char '_' :: r => numbersAt? r
  | .char 'U' :: .char 'E' :: .char '-' :: r => numbersAt? r
  | .char 'U' :: .char 'E' :: r => numbersAt? r
  | _ => none

/-- The first version in a text. -/
def firstVersion? : Text → Option (Text × Text)
  | [] => none
  | c :: r => (versionAt? (c :: r)).or (firstVersion? r)

/-- The number with some digits before and after the point. -/
def numberOf? (major minor : Text) : Option Binary64 :=
  Number.fraction? (major ++ "." ++ minor)

/-- The version that a path states. -/
def versionOfPath (path : Text) : Option Binary64 := do
  let (major, minor) ← firstVersion? path
  numberOf? major minor

/-! ### Versions in files -/

/-- The version that a document states.  An infinite number in it is a fault;
    anything else that is amiss makes it state none. -/
def versionOfDocument (document : Json) : Except Fault (Option Binary64) := do
  let number := fun key => match document.get? key with
    | none => pure none
    | some value => match Config.readInteger value with
      | .ok n => pure (some n)
      | .error (.noInteger .unbounded) => throw (Fault.noInteger .unbounded)
      | .error _ => pure none
  match ← number "MajorVersion" with
  | none => return none
  | some major => match ← number "MinorVersion" with
    | none => return none
    | some minor => return numberOf? (Text.ofInt major) (Text.ofInt minor)

/-- The version that the bytes of a file state. -/
def versionOfBytes (bytes : List UInt8) : Except Fault (Option Binary64) :=
  match Utf8.decode bytes with
  | .error _ => .ok none
  | .ok text =>
    match Json.read (Text.universal text) with
    | .ok document => versionOfDocument document
    | .error (.tooDeep container) => .error (.document (.tooDeep container))
    | .error _ => .ok none

/-- The file in which an engine states its version. -/
def versionFile (root : Text) : Path :=
  (((Path.ofText root).join "Engine").join "Build").join "Build.version"

/-- The version of the engine at a root. -/
def version (s : Store) (root : Text) : Except Fault Binary64 := do
  let stated ← match s.read (versionFile root).toText with
    | .ok bytes => versionOfBytes bytes
    | .error _ => pure none
  match stated with
  | some x => return x
  | none =>
    let x := (versionOfPath root).getD usualVersion
    return if x.isZero then usualVersion else x

end Engine

end ClangDb
