import ClangDb.Text.Blank

/-! # Arguments from a command

    What follows the compiler in a command is moved to a response file.  It
    still carries the escapes of a JSON string (`\"` for a quote, `\\` for a
    backslash) and the end of the line, a quote and a comma.  Eight steps in a
    fixed order turn it into lines of arguments: quotes around an argument lose
    their escape, quotes inside one keep it, backslashes become slashes, and
    each quoted argument ends its line.
-/

namespace ClangDb

namespace Arguments

/-- Three escaped quotes in a row. -/
def tripleQuote : Text := "\\\"\\\"\\\""

/-- What stands for three escaped quotes while the other steps run. -/
def placeholder : Text := "__3Q_PLACEHOLDER__"

/-- Hides runs of three escaped quotes from the steps that follow. -/
def protectTriples (s : Text) : Text := s.replaceAll tripleQuote placeholder

/-- The opening quote of `-D` and `-I` loses its escape. -/
def openDefinesAndIncludes (s : Text) : Text :=
  (s.replaceAll "-D\\\"" "-D\"").replaceAll "-I\\\"" "-I\""

/-- Of two escaped quotes in a row the second loses its escape. -/
def collapsePairs (s : Text) : Text := s.replaceAll "\\\"\\\"" "\\\"\""

/-- Whether a text is blanks with at most one comma among them. -/
def isCommaAndBlanks (s : Text) : Bool :=
  match s.dropWhile CodePoint.isBlank with
  | [] => true
  | c :: r => c = .char ',' && r.all CodePoint.isBlank

/-- Whether an escaped quote before this text closes an argument: a blank
    follows, or the quote that ends the line. -/
def closesArgument : Text → Bool
  | [] => false
  | c :: r => c.isBlank || (c = .char '"' && isCommaAndBlanks r)

/-- A quote that closes an argument loses its escape. -/
def unescapeClosing : Text → Text
  | [] => []
  | c :: r =>
    match c, r with
    | .char '\\', .char '"' :: rest =>
      if closesArgument rest then unescapeClosing r else c :: unescapeClosing r
    | _, _ => c :: unescapeClosing r

/-- A quote that a blank precedes loses its escape; `afterBlank` says whether one
    precedes the text. -/
def unescapeOpening : (afterBlank : Bool) → Text → Text
  | _, [] => []
  | afterBlank, c :: r =>
    if afterBlank ∧ c = .char '\\' ∧ r.head? = some (.char '"') then unescapeOpening false r
    else c :: unescapeOpening c.isBlank r

/-- Quotes at the boundaries of arguments lose their escape. -/
def unescapeBoundaries (s : Text) : Text := unescapeOpening false (unescapeClosing s)

/-- A doubled backslash becomes a slash. -/
def slashes (s : Text) : Text := s.replaceAll "\\\\" "/"

/-- Whether a text is the end of a line: an optional quote and an optional comma
    with blanks after each. -/
def isTerminator : Text → Bool
  | .char '"' :: r => isCommaAndBlanks r
  | s => isCommaAndBlanks s

/-- The text before the first position from which only the end of the line
    follows. -/
def dropTerminator : Text → Text
  | [] => []
  | c :: r => if isTerminator (c :: r) then [] else c :: dropTerminator r

/-- Drops the end of the line, then the blanks around what is left. -/
def stripTerminator (s : Text) : Text := (dropTerminator s).trim

/-- Breaks the line after each quoted argument. -/
def breakLines (s : Text) : Text := s.replaceAll "\" " "\"\n"

/-- Writes runs of three escaped quotes again. -/
def restoreTriples (s : Text) : Text := s.replaceAll placeholder tripleQuote

/-- One of the eight steps. -/
inductive Step where
  | protectTriples
  | openDefinesAndIncludes
  | collapsePairs
  | unescapeBoundaries
  | slashes
  | stripTerminator
  | breakLines
  | restoreTriples
  deriving DecidableEq, Repr

/-- What a step does to a text. -/
def Step.apply : Step → Text → Text
  | .protectTriples => Arguments.protectTriples
  | .openDefinesAndIncludes => Arguments.openDefinesAndIncludes
  | .collapsePairs => Arguments.collapsePairs
  | .unescapeBoundaries => Arguments.unescapeBoundaries
  | .slashes => Arguments.slashes
  | .stripTerminator => Arguments.stripTerminator
  | .breakLines => Arguments.breakLines
  | .restoreTriples => Arguments.restoreTriples

/-- The steps in their order. -/
def steps : List Step := [
  .protectTriples, .openDefinesAndIncludes, .collapsePairs, .unescapeBoundaries,
  .slashes, .stripTerminator, .breakLines, .restoreTriples]

/-- The body of a response file from the rest of a command. -/
def body (tail : Text) : Text := steps.foldl (fun s step => step.apply s) tail

end Arguments

end ClangDb
