import ClangDb.Text.Printable

/-! # Quoted text

    The form in which a message shows a path or another piece of text: between
    single quotes, or between double quotes when the text holds a single quote
    and no double one.  The backslash and the quote in use are escaped; what is
    not printable is written by its number, in the shortest of the forms
    `\xNN`, `\uNNNN` and `\UNNNNNNNN`.
-/

namespace ClangDb

/-- The last `width` hexadecimal digits of a number, in lower case. -/
def hexDigits : Nat → Nat → Text
  | 0, _ => []
  | width + 1, n => hexDigits width (n / 16) ++ [.char (Nat.digitChar (n % 16))]

namespace Text

/-- One code point of a quoted text. -/
def quotedUnit (quote : Char) (c : CodePoint) : Text :=
  if c = .char quote ∨ c = .char '\\' then [.char '\\', c]
  else if c = .char '\n' then "\\n"
  else if c = .char '\r' then "\\r"
  else if c = .char '\t' then "\\t"
  else if c.isPrintable then [c]
  else if c.toNat < 0x100 then "\\x" ++ hexDigits 2 c.toNat
  else if c.toNat < 0x10000 then "\\u" ++ hexDigits 4 c.toNat
  else "\\U" ++ hexDigits 8 c.toNat

/-- The quote that a text is shown between. -/
def quoteFor (s : Text) : Char :=
  if .char '\'' ∈ s ∧ .char '"' ∉ s then '"' else '\''

/-- A text as a message shows it. -/
def quoted (s : Text) : Text :=
  let quote := quoteFor s
  .char quote :: s.flatMap (quotedUnit quote) ++ [.char quote]

end Text

end ClangDb
