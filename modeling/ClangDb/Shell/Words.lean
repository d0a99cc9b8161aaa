import ClangDb.Text.Basic

/-! # Words of a command line

    Extra flags of a target are one text, split into words as a POSIX shell
    splits them: blanks separate, single quotes keep everything, double quotes
    keep everything but an escaped quote or backslash, and a backslash outside
    quotes keeps the next code point.  A pair of quotes alone is an empty word.
-/

namespace ClangDb

namespace Shell

/-- Why a text cannot be split. -/
inductive WordError where
  | noClosingQuotation
  | noEscapedCharacter
  deriving DecidableEq, Repr

/-- The sentence that reports a text that cannot be split. -/
def WordError.message : WordError → Text
  | .noClosingQuotation => "No closing quotation"
  | .noEscapedCharacter => "No escaped character"

/-- The quote that a text stands in. -/
inductive Quote where
  | single
  | double
  deriving DecidableEq, Repr

/-- The quote that a code point opens or closes. -/
def Quote.of? (c : CodePoint) : Option Quote :=
  if c = .char '\'' then some .single else if c = .char '"' then some .double else none

/-- How the next code point is read. -/
inductive Mode where
  | plain
  | quoted (q : Quote)
  /-- After a backslash, outside or inside double quotes. -/
  | escaped (inside : Bool)
  deriving DecidableEq, Repr

/-- Whether a code point separates words. -/
def isSeparator (c : CodePoint) : Bool :=
  c = .char ' ' || c = .char '\t' || c = .char '\r' || c = .char '\n'

/-- A word that goes on with some code points. -/
def extend (word : Option Text) (s : Text) : Option Text := some (word.getD [] ++ s)

/-- Splits a text, given how its head is read and the word begun before it. -/
def wordsFrom : Mode → Option Text → Text → Except WordError (List Text)
  | .plain, word, [] => .ok word.toList
  | .quoted _, _, [] => .error .noClosingQuotation
  | .escaped _, _, [] => .error .noEscapedCharacter
  | .plain, word, c :: r =>
    if isSeparator c then
      match wordsFrom .plain none r with
      | .ok words => .ok (word.toList ++ words)
      | .error e => .error e
    else if c = .char '\\' then wordsFrom (.escaped false) word r
    else match Quote.of? c with
      | some q => wordsFrom (.quoted q) (extend word []) r
      | none => wordsFrom .plain (extend word [c]) r
  | .quoted q, word, c :: r =>
    if Quote.of? c = some q then wordsFrom .plain word r
    else if c = .char '\\' ∧ q = .double then wordsFrom (.escaped true) word r
    else wordsFrom (.quoted q) (extend word [c]) r
  | .escaped inside, word, c :: r =>
    if inside then
      let kept : Text := if c = .char '\\' ∨ c = .char '"' then [c] else [.char '\\', c]
      wordsFrom (.quoted .double) (extend word kept) r
    else wordsFrom .plain (extend word [c]) r

/-- The words of a text. -/
def words (s : Text) : Except WordError (List Text) := wordsFrom .plain none s

end Shell

end ClangDb
