import ClangDb.Fault

/-! # Build targets

    A target names what is built, in which configuration and for which
    platform.  Its values come from a JSON object and keep their types there, so
    a target can hold a number where a text was meant; the operations that need
    a text then end with a fault.
-/

namespace ClangDb

/-- What is built. -/
structure Target where
  name : Json
  configuration : Json
  withEditor : Bool
  extraFlags : Json
  platform : Json
  deriving Repr, Inhabited

namespace Target

/-- What an editor target's name ends in. -/
def suffix (t : Target) : Text := if t.withEditor then "Editor" else []

/-- Joins a value and a text; `sign` is the operation's sign in a report. -/
def joined (sign : Text) (value : Json) (s : Text) : Except Fault Text :=
  match value with
  | .string v => .ok (v ++ s)
  | v => .error (.wrongType (.join sign v))

/-- The name that the build tool expects. -/
def fullName (t : Target) : Except Fault Text := joined "+" t.name t.suffix

/-- The target's label, and the target afterwards.  An editor target's label is
    its configuration with a suffix; a configuration that is a list takes the
    letters of the suffix as further elements, and keeps them. -/
def labelled (t : Target) : Except Fault (Json × Target) :=
  if t.withEditor then
    let ending : Text := "-Editor"
    match t.configuration with
    | .array elements =>
      let longer := Json.array (elements ++ ending.map fun c => .string [c])
      .ok (longer, { t with configuration := longer })
    | v => (joined "+=" v ending).map fun s => (.string s, t)
  else .ok (t.configuration, t)

/-- The target's label. -/
def label (t : Target) : Except Fault Json := t.labelled.map (·.1)

/-- The target as an entry of a configuration. -/
def toJson (t : Target) : Json := .ofFields [
  ("TargetName", t.name), ("Configuration", t.configuration), ("withEditor", .bool t.withEditor),
  ("UbtExtraFlags", t.extraFlags), ("PlatformName", t.platform)]

/-- Reads an entry of a configuration. -/
def ofJson (entry : Json) : Except Fault Target :=
  match entry with
  | .object members =>
    let name := (Json.member? "TargetName" members).getD .null
    let flags := (Json.member? "UbtExtraFlags" members).getD .null
    if !name.isTrue then .error (.config .noTargetName)
    else .ok {
      name := name
      configuration := (Json.member? "Configuration" members).getD (.string "Development")
      withEditor := ((Json.member? "withEditor" members).getD (.bool true)).isTrue
      extraFlags := if flags.isTrue then flags else .string []
      platform := (Json.member? "PlatformName" members).getD (.string "Linux") }
  | v => .error (.noOperation ⟨v, "get"⟩)

/-- What the names of a target's binaries end in; those of the usual
    configuration end in nothing. -/
def binarySuffix (t : Target) : Text :=
  match t.configuration with
  | .string s =>
    if s = ("Development" : Text) then [] else "-" ++ t.platform.plain ++ "-" ++ s
  | v => "-" ++ t.platform.plain ++ "-" ++ v.plain

/-- One name of a path. -/
def pathName (value : Json) : Except Fault Text :=
  match value with
  | .string s => .ok s
  | v => .error (.wrongType (.pathName v))

/-- The folder of a target's response files. -/
def responseFileFolder (project : Path) (t : Target) : Except Fault Path := do
  let platform ← pathName t.platform
  let configuration ← pathName t.configuration
  return (((project.join "Intermediate").join "clangRsp").join platform).join configuration

end Target

end ClangDb
