import ClangDb.Text.Basic

/-! # Log records

    What an operation reports while it runs.  Records are kept in order; which
    of them are shown is decided where they are printed.
-/

namespace ClangDb

/-- How much a record matters, least first. -/
inductive Level where
  | debug
  | info
  | warning
  | error
  deriving DecidableEq, Repr, Inhabited

namespace Level

/-- The name of a level. -/
def name : Level → Text
  | .debug => "DEBUG"
  | .info => "INFO"
  | .warning => "WARNING"
  | .error => "ERROR"

/-- The position of a level, least first. -/
def rank : Level → Nat
  | .debug => 0
  | .info => 1
  | .warning => 2
  | .error => 3

end Level

/-- A level and a sentence. -/
structure Record where
  level : Level
  message : Text
  deriving DecidableEq, Repr, Inhabited

/-- The records that matter at least so much. -/
def Record.atLeast (least : Level) (records : List Record) : List Record :=
  records.filter fun r => least.rank ≤ r.level.rank

end ClangDb
