import ClangDb.Text.Basic

/-! # Platforms and dialects

    The host decides which build tool runs, under which name the tool knows the
    platform, and which spelling of compiler flags its response files use.
-/

namespace ClangDb

/-- The spelling of compiler flags. -/
inductive Dialect where
  | clang
  | msvc
  deriving DecidableEq, Repr, Inhabited

/-- A host on which projects are built; every unknown system is treated as Linux. -/
inductive Platform where
  | windows
  | mac
  | linux
  deriving DecidableEq, Repr, Inhabited

namespace Dialect

/-- The dialect's name. -/
def name : Dialect → Text
  | .clang => "clang"
  | .msvc => "msvc"

/-- Both dialects. -/
def all : List Dialect := [.msvc, .clang]

/-- The dialect of a name. -/
def ofName? (s : Text) : Option Dialect := all.find? fun d => d.name = s

/-- The text in which a compiler's path ends inside a command: the end of its
    name and an escaped quote, as the path is always quoted. -/
def compilerEnd : Dialect → Text
  | .msvc => ".exe\\\""
  | .clang => "clang++\\\""

end Dialect

namespace Platform

/-- The platform of a system's name. -/
def ofSystem (system : Text) : Platform :=
  if system = ("Windows" : Text) then .windows
  else if system = ("Darwin" : Text) then .mac
  else .linux

/-- The name that the build tool has for the platform. -/
def name : Platform → Text
  | .windows => "Win64"
  | .mac => "Mac"
  | .linux => "Linux"

/-- The dialect of the platform's compiler. -/
def dialect : Platform → Dialect
  | .windows => .msvc
  | _ => .clang

end Platform

end ClangDb
