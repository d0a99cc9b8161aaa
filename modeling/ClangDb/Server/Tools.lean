import ClangDb.Json.Basic

/-! # The tools that the server offers

    Each tool has a name, a description and a schema of its arguments.  All
    arguments are optional.
-/

namespace ClangDb

namespace Server

/-! ### Arguments -/

/-- The type of an argument. -/
inductive ArgumentType where
  | text
  | integer
  | switch
  deriving DecidableEq, Repr

/-- The name of an argument's type in a schema. -/
def ArgumentType.name : ArgumentType → Text
  | .text => "string"
  | .integer => "integer"
  | .switch => "boolean"

/-- An argument of a tool. -/
structure Argument where
  name : Text
  type : ArgumentType
  description : Text
  deriving DecidableEq, Repr

/-- An argument in a schema; a switch is off unless it is given. -/
def Argument.toJson (a : Argument) : Json :=
  .ofFields ([("type", .string a.type.name), ("description", .string a.description)]
    ++ if a.type = .switch then [("default", .bool false)] else [])

/-- The argument that names the project. -/
def projectArgument : Argument :=
  ⟨"project", .text, "Project directory or .uproject path (default: UNREAL_CODEGEN_PROJECT)"⟩

/-- The argument that picks a target. -/
def targetArgument : Argument :=
  ⟨"target", .integer, "1-based target index from UnrealNvim.json (default: DefaultTarget)"⟩

/-! ### Tools -/

/-- What the server can be asked to do. -/
inductive Tool where
  /-- Generates a project's database. -/
  | generate
  /-- Writes a project's configuration. -/
  | init
  /-- Shows the command that builds a project. -/
  | buildCommand
  /-- Shows the command that launches a project. -/
  | runCommand
  deriving DecidableEq, Repr

namespace Tool

/-- All tools, in the order in which they are listed. -/
def all : List Tool := [.generate, .init, .buildCommand, .runCommand]

/-- The name of a tool. -/
def name : Tool → Text
  | .generate => "generate_compile_commands"
  | .init => "init_project"
  | .buildCommand => "get_build_command"
  | .runCommand => "get_run_command"

/-- The tool with a name. -/
def ofName? (name : Text) : Option Tool := all.find? fun t => t.name = name

/-- What a tool does. -/
def description : Tool → Text
  | .generate =>
    "Generate a clang-compatible compile_commands.json for an Unreal project.\n\n"
      ++ "Runs UnrealBuildTool in GenerateClangDatabase mode, rewrites every entry to use\n"
      ++ "a clang-style response file and writes the result to the project directory.\n"
      ++ "Returns counts and per-entry errors."
  | .init => "Create UnrealNvim.json for a project, auto-detecting the engine if not given."
  | .buildCommand => "Return the command line that builds the project target."
  | .runCommand => "Return the command line that launches the project target."

/-- The arguments of a tool. -/
def arguments : Tool → List Argument
  | .generate => [projectArgument, targetArgument,
      ⟨"with_engine", .switch, "Also write response files for engine sources"⟩,
      ⟨"headers", .switch, "Run UnrealHeaderTool afterwards"⟩,
      ⟨"skip_ubt", .switch, "Reuse the engine's existing compile_commands.json"⟩]
  | .init => [projectArgument, ⟨"engine", .text, "Engine root"⟩]
  | .buildCommand | .runCommand => [projectArgument, targetArgument]

/-- The schema of a tool's arguments. -/
def schema (t : Tool) : Json := .ofFields [
  ("type", .string "object"),
  ("properties", .object (t.arguments.map fun a => (a.name, a.toJson)))]

end Tool

end Server

end ClangDb
