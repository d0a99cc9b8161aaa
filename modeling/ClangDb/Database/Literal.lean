import ClangDb.Text.Basic

/-! # String literals on a line

    The database is read line by line, without a JSON reader: the value of a
    `"file":` key is the raw text between the quotes that follow it, escapes left
    in place.  A literal is a sequence of units, each a code point other than
    quote and backslash or a backslash with the code point after it.
-/

namespace ClangDb

namespace Database

/-- The key before an entry's source file. -/
def fileKey : Text := "\"file\":"

/-- The key before an entry's command. -/
def commandKey : Text := "\"command\":"

/-- The units up to the closing quote, and what follows it. -/
def literalBody? : Text → Option (Text × Text)
  | [] => none
  | c :: r =>
    if c = .char '"' then some ([], r)
    else if c = .char '\\' then
      match r with
      | [] => none
      | d :: r' => (literalBody? r').map fun (body, rest) => (c :: d :: body, rest)
    else (literalBody? r).map fun (body, rest) => (c :: body, rest)

/-- Whether a code point may stand between a key and its value. -/
def isPadding (c : CodePoint) : Bool := c = .char ' ' || c = .char '\t'

/-- The raw text of the literal that the text begins with, after padding. -/
def literal? (s : Text) : Option Text :=
  match s.dropWhile isPadding with
  | [] => none
  | c :: r => if c = .char '"' then (literalBody? r).map (·.1) else none

/-- The raw text of the literal that begins at or after a position of a line. -/
def readLiteral? (line : Text) (start : Nat) : Option Text := literal? (line.drop start)

/-- The value of the first `"file":` key on a line. -/
def fileValue? (line : Text) : Option Text := do
  let (_, rest) ← Text.cut? fileKey line
  literal? rest

end Database

end ClangDb
