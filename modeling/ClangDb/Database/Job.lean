import ClangDb.Platform

/-! # Response-file jobs

    A redirected entry points at a response file.  A job says where that file
    goes, for which source it is written and what it is made of: the rest of the
    command, or a response file of the build tool that is read when the job runs.
    The new name of a response file differs from the old one, and the name made
    for an inline command flattens the path of its source.
-/

namespace ClangDb

namespace Database

/-- What a response file is made of. -/
inductive Content where
  /-- The arguments that followed the compiler in the command. -/
  | arguments (tail : Text)
  /-- The build tool's response file at a path. -/
  | conversion (source engineDir : Text) (dialect : Dialect)
  deriving DecidableEq, Repr

/-- A response file to write for one entry. -/
structure Job where
  path : Text
  /-- The source file of the entry, as the database writes it. -/
  sourceFile : Text
  content : Content
  deriving DecidableEq, Repr

/-- The name of the converted copy of a response file. -/
def copyName (dialect : Dialect) (path : Text) : Text :=
  match dialect with
  | .msvc => path ++ ".cl.rsp"
  | .clang => if path.endsWith ".rsp" then path ++ ".clang.rsp" else path ++ ".rsp"

/-- Whether a code point is left out of a flattened name. -/
def isDropped (c : CodePoint) : Bool := c = .char ':' || c = .char '"' || c = .char ','

/-- The name of a response file made for a source: its path as one name, with
    underscores for separators. -/
def flatName (sourceFile : Text) : Text :=
  let kept : Text := (sourceFile.replaceAll "\\\\" "/").filter (!isDropped ·)
  (kept.substitute '\\' '/').substitute '/' '_' ++ ".rsp"

end Database

end ClangDb
