import ClangDb.Text.Basic

/-! # Lines

    Three ways to cut a text into lines.  `rawLines` cuts after `\n`, `\r` and
    `\r\n` and keeps the endings, so that its pieces join to the text again.
    `universal` turns each of the three endings into `\n`, which is how a file
    is read as text.  `lines` cuts at every line boundary of Unicode and drops
    the boundaries.
-/

namespace ClangDb

namespace Text

/-- The lines of a text with their endings `\n`, `\r` or `\r\n`. -/
def rawLines : Text → List Text
  | [] => []
  | c :: r =>
    if c = .char '\n' ∨ (c = .char '\r' ∧ r.head? ≠ some (.char '\n')) then [c] :: rawLines r
    else match rawLines r with
      | [] => [[c]]
      | line :: more => (c :: line) :: more

/-- The text with every `\r\n` and every other `\r` written as `\n`. -/
def universal : Text → Text
  | [] => []
  | c :: r =>
    if c = .char '\r' then
      if r.head? = some (.char '\n') then universal r else .char '\n' :: universal r
    else c :: universal r

/-- Whether a code point ends a line in Unicode's sense. -/
def isLineBoundary (c : CodePoint) : Bool :=
  [0x0a, 0x0b, 0x0c, 0x0d, 0x1c, 0x1d, 0x1e, 0x85, 0x2028, 0x2029].contains c.toNat

/-- The lines of a text without the boundaries; `\r\n` is one boundary, and a
    boundary at the end opens no further line. -/
def lines : Text → List Text
  | [] => []
  | c :: r =>
    if c = .char '\r' ∧ r.head? = some (.char '\n') then lines r
    else if isLineBoundary c then [] :: lines r
    else match lines r with
      | [] => [[c]]
      | line :: more => (c :: line) :: more

/-- A line's content and its ending, the run of `\r` and `\n` at its end. -/
def splitEnding (line : Text) : Text × Text :=
  let isEnding := fun c : CodePoint => c = .char '\r' || c = .char '\n'
  (line.trimRight isEnding, (line.reverse.takeWhile isEnding).reverse)

end Text

end ClangDb
