import ClangDb.Text.Basic

/-! # Separators

    Databases mix slashes and backslashes, and the backslashes of a JSON string
    are doubled.  All comparisons of paths go through `normalize`, which writes
    every run of separators as one slash; whether a file belongs to the engine
    is decided by the engine root occurring anywhere in it.
-/

namespace ClangDb

namespace Path

/-- Writes each run of slashes as one. -/
def collapse : Text → Text
  | [] => []
  | c :: r =>
    if c = .char '/' ∧ r.head? = some (.char '/') then collapse r else c :: collapse r

/-- Writes each run of slashes and backslashes as one slash. -/
def normalize (path : Text) : Text := collapse (path.substitute '\\' '/')

/-- Whether the root occurs in the path, both normalized. -/
def isUnderRoot (path root : Text) : Bool := (normalize path).contains (normalize root)

/-- A path inside a quoted argument of a command: separators become slashes, a
    doubled backslash a single one, and quotes are escaped. -/
def escape (path : Text) : Text :=
  ((path.replaceAll "\\\\" "/").substitute '\\' '/').replaceAll "\"" "\\\""

/-- A directory without the slashes at its end; of slashes alone one stays. -/
def withoutTrailing (path : Text) : Text :=
  match path.trimRight (· = .char '/') with
  | [] => "/"
  | path => path

end Path

end ClangDb
