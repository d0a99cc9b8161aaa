import ClangDb.Text.Utf8

/-! # Failures of the file store

    Why an operation on a path failed.  Most failures have a number and a phrase
    of their own and name the path as it was given.  A path that holds a null
    character or has no bytes is refused before the store is asked.
-/

namespace ClangDb

/-- What the store found in the way. -/
inductive FileCause where
  | notFound
  | denied
  | exists
  | notFolder
  | isFolder
  | nameTooLong
  deriving DecidableEq, Repr

namespace FileCause

/-- The number of a cause. -/
def number : FileCause → Nat
  | .notFound => 2
  | .denied => 13
  | .exists => 17
  | .notFolder => 20
  | .isFolder => 21
  | .nameTooLong => 36

/-- The phrase for a cause. -/
def phrase : FileCause → Text
  | .notFound => "No such file or directory"
  | .denied => "Permission denied"
  | .exists => "File exists"
  | .notFolder => "Not a directory"
  | .isFolder => "Is a directory"
  | .nameTooLong => "File name too long"

end FileCause

/-- A cause and the path it concerns. -/
structure FileError where
  cause : FileCause
  path : Text
  deriving DecidableEq, Repr

/-- The sentence that reports a failure. -/
def FileError.message (e : FileError) : Text :=
  "[Errno " ++ Text.ofNat e.cause.number ++ "] " ++ e.cause.phrase ++ ": " ++ e.path.quoted

/-- Why a path could not be used. -/
inductive AccessError where
  | file (e : FileError)
  /-- The path holds a null character. -/
  | embeddedNull
  /-- The path has no bytes. -/
  | unencodable (e : Utf8.EncodeError)
  deriving DecidableEq, Repr

end ClangDb
