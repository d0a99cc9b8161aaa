import ClangDb.Platform

/-! # Flags of response files

    The build tool writes response files in MSVC spelling even where the
    compiler is clang.  For clang the flags at the start of a line are respelled;
    for MSVC the lines stay as they are.  Either way three engine headers are
    force-included after the lines, so that a language server knows the macros of
    reflected types without generated headers.
-/

namespace ClangDb

namespace ResponseFile

/-- The flags that are respelled, each at the start of a line, tried in order. -/
def spellings : List (Text × Text) := [
  ("/FI", "-include "), ("/I ", "-I "), ("/D", "-D"), ("/W", "-W")]

/-- Respells one flag at the start of a line. -/
def respell (line : Text) (spelling : Text × Text) : Text :=
  match Text.dropStart? spelling.1 line with
  | some rest => spelling.2 ++ rest
  | none => line

/-- A line in a dialect. -/
def convertLine (dialect : Dialect) (line : Text) : Text :=
  match dialect with
  | .msvc => line
  | .clang => spellings.foldl respell line

/-- The force-included headers, below the engine directory. -/
def mandatoryHeaders : List Text := [
  "Engine/Source/Runtime/CoreUObject/Public/UObject/ObjectMacros.h",
  "Engine/Source/Runtime/Core/Public/Misc/EnumRange.h",
  "Engine/Source/Runtime/Engine/Public/EngineMinimal.h"]

/-- The line that includes a header. -/
def includeLine (dialect : Dialect) (engineDir header : Text) : Text :=
  let path := engineDir ++ "/" ++ header
  match dialect with
  | .msvc => "/FI\"" ++ path ++ "\""
  | .clang => "-include \"" ++ path ++ "\""

/-- Lines in a dialect, followed by the mandatory includes. -/
def convertLines (dialect : Dialect) (engineDir : Text) (lines : List Text) : List Text :=
  lines.map (convertLine dialect) ++ mandatoryHeaders.map (includeLine dialect engineDir)

end ResponseFile

end ClangDb
