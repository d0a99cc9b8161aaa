import ClangDb.Text.Basic

/-! # Blanks

    The white space that separates compiler arguments and surrounds a line's
    content: the white space of Unicode together with the four separator
    controls `U+001C` to `U+001F`.  Numbers are surrounded by a smaller set.
-/

namespace ClangDb

namespace CodePoint

/-- The numbers of the blank code points. -/
def blanks : List Nat := [
  0x09, 0x0a, 0x0b, 0x0c, 0x0d, 0x1c, 0x1d, 0x1e, 0x1f, 0x20, 0x85, 0xa0, 0x1680,
  0x2000, 0x2001, 0x2002, 0x2003, 0x2004, 0x2005, 0x2006, 0x2007, 0x2008, 0x2009, 0x200a,
  0x2028, 0x2029, 0x202f, 0x205f, 0x3000]

/-- Whether a code point is white space. -/
def isBlank : CodePoint → Bool
  | .lone _ => false
  | .char c => blanks.contains c.toNat

/-- The white space of ASCII without the four separator controls. -/
def isPlainBlank (c : CodePoint) : Bool :=
  c = .char ' ' || (0x09 ≤ c.toNat && c.toNat ≤ 0x0d)

end CodePoint

/-- The text without the blanks at its ends. -/
def Text.trim (s : Text) : Text := s.trimBoth CodePoint.isBlank

end ClangDb
