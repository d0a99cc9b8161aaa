import ClangDb.Config.Basic

/-! # Answers

    An operation on a project answers whether it succeeded, says so in one
    sentence, and adds details.  A fault that the user can mend is an answer as
    well; the others are left to the caller.
-/

namespace ClangDb

/-- What an operation on a project answers. -/
structure Answer where
  success : Bool
  message : Text
  details : List (Text × Json)
  deriving Repr, Inhabited

namespace Answer

/-- The details of fixed names. -/
def fields (details : List (String × Json)) : List (Text × Json) :=
  details.map fun (key, value) => (Text.ofString key, value)

/-- A success. -/
def done (message : Text) (details : List (String × Json)) : Answer :=
  ⟨true, message, fields details⟩

/-- A failure. -/
def failure (message : Text) (details : List (String × Json)) : Answer :=
  ⟨false, message, fields details⟩

/-- The answer with a detail set. -/
def withDetail (a : Answer) (key : String) (value : Json) : Answer :=
  { a with details := Json.setMember (Text.ofString key) value a.details }

/-- The answer as a JSON object. -/
def toJson (a : Answer) : Json :=
  .object (("success", .bool a.success) :: ("message", .string a.message) :: a.details)

end Answer

/-- The outcome of an operation, with a fault in what was given as a failure. -/
def Task.orFailure {α : Type} (t : Task α) : Task (Except Answer α) := do
  match ← t.outcome with
  | .ok value => return .ok value
  | .error e =>
    if e.isInvalidValue then return .error (.failure e.message []) else Task.fail e

end ClangDb
