import ClangDb.Database.Pass
import ClangDb.Json.Reader
import ClangDb.Shell.Words

/-! # Faults

    Why an operation came to no result.  Each fault is a cause, and its sentence
    is made in one place.  The value of a configuration's key may have any JSON
    type; an operation that its type does not have is a fault of its own.
-/

namespace ClangDb

/-! ### Values of the wrong type -/

/-- An operation met a value of a type that it does not take. -/
inductive WrongType where
  /-- Joining a value and a text. -/
  | join (sign : Text) (left : Json)
  /-- Looking for a text in a value. -/
  | search (value : Json)
  /-- Joining the arguments of a command. -/
  | argument (index : Nat) (value : Json)
  /-- A value in place of a path. -/
  | path (value : Json)
  /-- A value as one name of a path. -/
  | pathName (value : Json)
  /-- Comparing a value with a number. -/
  | order (value : Json)
  /-- A value as a position in a list. -/
  | position (value : Json)
  /-- A value in place of an integer. -/
  | integer (value : Json)
  deriving Repr

/-- The sentence that reports a value of the wrong type. -/
def WrongType.message : WrongType → Text
  | .join sign left =>
    match left with
    | .array _ => "can only concatenate list (not \"str\") to list"
    | _ => "unsupported operand type(s) for " ++ sign ++ ": '" ++ left.kind ++ "' and 'str'"
  | .search value => "argument of type '" ++ value.kind ++ "' is not iterable"
  | .argument index value =>
    "sequence item " ++ Text.ofNat index ++ ": expected str instance, " ++ value.kind ++ " found"
  | .path value => "expected str, bytes or os.PathLike object, not " ++ value.kind
  | .pathName value =>
    "unsupported operand type(s) for /: 'PosixPath' and '" ++ value.kind ++ "'"
  | .order value => "'<=' not supported between instances of 'int' and '" ++ value.kind ++ "'"
  | .position value => "list indices must be integers or slices, not " ++ value.kind
  | .integer value =>
    "int() argument must be a string, a bytes-like object or a real number, not '"
      ++ value.kind ++ "'"

/-- An operation that a value does not have. -/
structure NoOperation where
  value : Json
  operation : Text
  deriving Repr

/-- The sentence that reports a missing operation. -/
def NoOperation.message (e : NoOperation) : Text :=
  "'" ++ e.value.kind ++ "' object has no attribute '" ++ e.operation ++ "'"

/-! ### Configurations -/

/-- Why a configuration is refused. -/
inductive ConfigError where
  | missing (path : Text)
  | malformed (e : Json.ReadError)
  | unreadable (e : FileError)
  | notObject (path : Text)
  | incompatible (version : Json)
  | noTargets
  | noTargetName
  | engineVersion (value : Json)
  | targetIndex (index : Json) (count : Nat)
  | noEngineDir
  deriving Repr

/-- The version of the format that is read and written. -/
def formatVersion : Text := "0.0.2"

/-- The sentence that reports a refused configuration. -/
def ConfigError.message : ConfigError → Text
  | .missing path => "Config file not found: " ++ path
  | .malformed e => "Invalid JSON in config file: " ++ e.message
  | .unreadable e => "Cannot open config file: " ++ e.message
  | .notObject path => "Config file must contain a JSON object: " ++ path
  | .incompatible version =>
    "Config format " ++ version.shown ++ " is incompatible with " ++ formatVersion.quoted
      ++ ". Back up the file, delete it and create a new one with 'unreal-codegen init'"
  | .noTargets => "Config has no Targets"
  | .noTargetName => "Target entry is missing TargetName"
  | .engineVersion value => "Invalid EngineVer: " ++ value.shown
  | .targetIndex index count =>
    "Invalid target index: " ++ index.plain ++ " (config has " ++ Text.ofNat count ++ " targets)"
  | .noEngineDir => "Engine directory not specified"

/-! ### Tools -/

/-- A number of seconds. -/
inductive Seconds where
  | whole (n : Int)
  | fraction (x : Binary64)
  deriving DecidableEq, Repr

/-- A number of seconds as a message shows it. -/
def Seconds.toText : Seconds → Text
  | .whole n => Text.ofInt n
  | .fraction x => x.render

/-- Why a tool did not run to its end. -/
inductive ToolError where
  | notFound (tool : Text) (e : FileError)
  | timedOut (name : Text) (limit : Seconds)
  | failed (tool : Text) (e : FileError)
  deriving DecidableEq, Repr

/-- The sentence that reports a tool. -/
def ToolError.message : ToolError → Text
  | .notFound tool e => "Tool not found: " ++ tool ++ " (" ++ e.message ++ ")"
  | .timedOut name limit => name ++ " timed out after " ++ limit.toText ++ "s"
  | .failed tool e => "Failed to run " ++ tool ++ ": " ++ e.message

/-! ### All faults -/

/-- Why an operation came to no result. -/
inductive Fault where
  | config (e : ConfigError)
  /-- A configuration stands where one was to be written. -/
  | configExists (path : Text)
  | pass (e : Database.PassError)
  | responseFile (e : ResponseFile.Missing)
  | tool (e : ToolError)
  | access (e : AccessError)
  | noProject
  | projectNotFound (project : Text)
  | words (e : Shell.WordError)
  | integer (e : Number.IntegerError)
  | noInteger (e : Binary64.NoInteger)
  /-- An integer beyond the greatest number. -/
  | tooGreat
  /-- A limit that is too long to wait for. -/
  | limitTooLong
  | document (e : Json.ReadError)
  | undecodable (e : Utf8.DecodeError)
  | wrongType (e : WrongType)
  | noOperation (e : NoOperation)
  | unknownHome
  | noCommand
  deriving Repr

/-- The sentence of an access that failed. -/
def AccessError.message : AccessError → Text
  | .file e => e.message
  | .embeddedNull => "embedded null byte"
  | .unencodable e => e.message

/-- The sentence of a pass that did not come to an end. -/
def Database.PassError.message : Database.PassError → Text
  | .noEngineDir => "Engine directory not specified"
  | .unreadable input e =>
    "Cannot open compile_commands.json: " ++ input ++ " (" ++ e.message ++ ")"
  | .noOutputDir path e => "Cannot create output directory " ++ path ++ ": " ++ e.message
  | .badPath e => e.message

/-- The sentence of a number without an integer part. -/
def Binary64.NoInteger.message : Binary64.NoInteger → Text
  | .notANumber => "cannot convert float NaN to integer"
  | .unbounded => "cannot convert float infinity to integer"

/-- The sentence that reports a fault. -/
def Fault.message : Fault → Text
  | .config e => e.message
  | .configExists path => "Config already exists: " ++ path
  | .pass e => e.message
  | .responseFile e => e.message
  | .tool e => e.message
  | .access e => e.message
  | .noProject => "Project path is required"
  | .projectNotFound project => "Could not find .uproject file in: " ++ project
  | .words e => e.message
  | .integer e => e.message
  | .noInteger e => e.message
  | .tooGreat => "int too large to convert to float"
  | .limitTooLong => "timeout is too large"
  | .document e => e.message
  | .undecodable e => e.message
  | .wrongType e => e.message
  | .noOperation e => e.message
  | .unknownHome => "Could not determine home directory."
  | .noCommand => "list index out of range"

/-- Whether a fault lies in a value that was given: a text, a number or a
    document that is not what was expected, or a path that is no path. -/
def Fault.isInvalidValue : Fault → Bool
  | .config _ | .noProject | .projectNotFound _ | .words _ | .integer _ | .undecodable _ => true
  | .pass e =>
    match e with
    | .noEngineDir | .badPath _ => true
    | .unreadable _ _ | .noOutputDir _ _ => false
  | .access e =>
    match e with
    | .embeddedNull | .unencodable _ => true
    | .file _ => false
  | .noInteger e => e = .notANumber
  | .document e =>
    match e with
    | .malformed .. | .tooLong _ => true
    | .tooDeep _ => false
  | _ => false

end ClangDb
